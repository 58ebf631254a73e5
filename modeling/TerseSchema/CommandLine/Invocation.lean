import TerseSchema.CommandLine.Grammar

/-!
# What a command line asks for

A command line names one of seven commands.  Two options belong to all of them and
may stand in front of the command or behind it: the file of a configuration, and a
wish for more messages.  The arguments are read in order, up to the first fault or the
first wish for the help or the version.

## Main definitions

* `CommandLine.Command`, `CommandLine.Invocation` — what a command line asks for.
* `CommandLine.Refusal` — why a command line runs no command.
* `CommandLine.Level` — the arguments on one side of the command's name.
* `CommandLine.read` — reads a command line.
-/

namespace TerseSchema.CommandLine

/-- What is to be done. -/
inductive Command where
  /-- Prints the records of a document. -/
  | verify (schema document : String) (pathRoot : Option String)
  /-- Prints whether a document is accepted. -/
  | check (schema document : String) (pathRoot : Option String)
  /-- Prints the shaped form of a document, or of nothing. -/
  | shape (schema : String) (document : Option String) (includeOptional : Bool)
  /-- Prints the schema of an example. -/
  | infer (document : String)
  | flatten (schema : String)
  | typeShape (schema : String)
  /-- Prints a sample of every type. -/
  | types
  deriving DecidableEq

/-- What a command line asks for. -/
structure Invocation where
  /-- The file of the configuration. -/
  config : Option String
  /-- How often more messages are asked for. -/
  verbosity : Nat
  command : Command
  deriving DecidableEq

/-- Why a command line runs no command. -/
inductive Refusal where
  /-- It is used wrongly. -/
  | misuse
  /-- It asks for a text about the program: the help or the version. -/
  | notice (text : String)
  deriving DecidableEq

/-! ### Arguments -/

/-- The arguments on one side of the command's name. -/
structure Level where
  /-- The options that were given a value, with their values. -/
  values : List (String × String) := []
  /-- The options without a value. -/
  flags : List String := []
  /-- How often more messages are asked for. -/
  verbosity : Nat := 0
  /-- The words, in order. -/
  words : List String := []

/-- How an argument is to be read. -/
inductive Shape where
  /-- `--`: all that follows are words. -/
  | divider
  /-- `--name` or `--name=value`. -/
  | long (name : String) (value : Option String)
  /-- `-abc`. -/
  | short (letters : List Char)
  /-- Anything else. -/
  | word

/-- How an argument is to be read. -/
def Shape.of (arg : String) : Shape :=
  match arg.toList with
  | ['-', '-'] => .divider
  | '-' :: '-' :: rest =>
    match rest.span (· ≠ '=') with
    | (name, _ :: value) => .long (String.ofList name) (some (String.ofList value))
    | (name, []) => .long (String.ofList name) none
  | '-' :: letter :: rest => .short (letter :: rest)
  | _ => .word

namespace Level

/-- Adds an option that is given without a value. -/
def use (g : Grammar) (l : Level) (o : Opt) : Except Refusal Level :=
  match o.effect with
  | .value _ _ => .error .misuse
  | .flag =>
    if l.flags.contains o.name then .error .misuse
    else .ok { l with flags := o.name :: l.flags }
  | .verbose => .ok { l with verbosity := l.verbosity + 1 }
  | .help => .error (.notice g.help)
  | .version => .error (.notice versionText)

/-- Adds options that are given by their letters. -/
def useLetters (g : Grammar) (l : Level) : List Char → Except Refusal Level
  | [] => .ok l
  | c :: letters =>
    match g.letter? c with
    | some o => (l.use g o).bind fun l => useLetters g l letters
    | none => .error .misuse

/-- Whether an option has a value already. -/
def has (l : Level) (o : Opt) : Bool := (l.values.lookup o.name).isSome

/-- Adds an option that is given with a value, which may be done only once. -/
def assign (l : Level) (o : Opt) (value : String) : Except Refusal Level :=
  match o.effect with
  | .value _ isFile =>
    if l.has o || (isFile && value = "") then .error .misuse
    else .ok { l with values := (o.name, value) :: l.values }
  | _ => .error .misuse

/-- Adds a word, if there may be one more. -/
def word (g : Grammar) (l : Level) (w : String) : Except Refusal Level :=
  match g.words[l.words.length]? with
  | some place =>
    if place.isFile && w = "" then .error .misuse else .ok { l with words := l.words ++ [w] }
  | none => .error .misuse

/-- Reads arguments up to the name of a command.  `pending` is an option whose value
has to come next, and behind a divider everything is a word.  The answer holds that
name and what follows it, if there is one. -/
def read (g : Grammar) (l : Level) (pending : Option Opt) (divided : Bool) :
    List String → Except Refusal (Level × Option (String × List String))
  | [] => if pending.isNone then .ok (l, none) else .error .misuse
  | arg :: rest =>
    if divided then (l.word g arg).bind fun l => read g l pending true rest
    else match Shape.of arg, pending with
      | .divider, _ => read g l pending true rest
      | .long name value, none =>
        match g.option? name, value with
        | none, _ => .error .misuse
        | some o, some value => (l.assign o value).bind fun l => read g l none false rest
        | some o, none =>
          if o.effect.takesValue then
            if l.has o then .error .misuse else read g l (some o) false rest
          else (l.use g o).bind fun l => read g l none false rest
      | .short letters, none => (l.useLetters g letters).bind fun l => read g l none false rest
      | .word, none =>
        if (g.commands.lookup arg).isSome then .ok (l, some (arg, rest))
        else (l.word g arg).bind fun l => read g l none false rest
      | .word, some o => (l.assign o arg).bind fun l => read g l none false rest
      | _, some _ => .error .misuse

end Level

/-! ### Commands -/

/-- The command with a name and arguments. -/
def command? (name : String) (l : Level) : Option Command :=
  match name, l.words with
  | "verify", [schema, document] =>
    some (.verify schema document (l.values.lookup pathRootOption.name))
  | "check", [schema, document] =>
    some (.check schema document (l.values.lookup pathRootOption.name))
  | "shape", [schema] =>
    some (.shape schema none (l.flags.contains includeOptionalOption.name))
  | "shape", [schema, document] =>
    some (.shape schema (some document) (l.flags.contains includeOptionalOption.name))
  | "infer", [document] => some (.infer document)
  | "flatten", [schema] => some (.flatten schema)
  | "type-shape", [schema] => some (.typeShape schema)
  | "types", [] => some .types
  | _, _ => none

/-- What follows from the command that prints the help, with the arguments behind it:
none, or the name of a command. -/
def helpOn : List String → Refusal
  | [] => .notice program.help
  | [name] =>
    match commands.lookup name with
    | some g => .notice g.help
    | none => .misuse
  | _ => .misuse

/-- Reads a command line.  Of two configurations, the one behind the command's name
counts. -/
def read (args : List String) : Except Refusal Invocation := do
  let (front, rest) ← ({} : Level).read program none false args
  match rest with
  | none => throw .misuse
  | some (name, rest) =>
    if name = helpCommand then throw (helpOn rest)
    match commands.lookup name with
    | none => throw .misuse
    | some g =>
      let (back, _) ← ({} : Level).read g none false rest
      let given (l : Level) : Option String := l.values.lookup configOption.name
      match command? name back with
      | none => throw .misuse
      | some command =>
        return ⟨(given back).or (given front), front.verbosity + back.verbosity, command⟩

end TerseSchema.CommandLine
