import TerseSchema.Schema.Token
import TerseSchema.Yaml.Block
import TerseSchema.Yaml.Plain
import TerseSchema.Yaml.Quoted
import TerseSchema.Yaml.Tag

/-!
# Tokens of YAML texts

## Main definitions

* `Yaml.Style`, `Yaml.Token` — the tokens.
* `Yaml.readName` — the name of an anchor or alias.
* `Yaml.readDirective` — a directive on a line of its own.

All readers give what they read and what is left behind it, or none if there is a
fault.
-/

namespace TerseSchema.Yaml

/-- How a text is written. -/
inductive Style where
  | plain
  | quoted
  /-- As a block behind `|`. -/
  | literal
  /-- As a block behind `>`. -/
  | folded
  deriving DecidableEq

/-- One token of a YAML text. -/
inductive Token where
  /-- `%YAML` with a version. -/
  | version (major minor : Nat)
  /-- `%TAG` with a handle and what it stands for. -/
  | handle (name : String) (meaning : Tag)
  /-- `---`. -/
  | documentStart
  /-- `...`. -/
  | documentEnd
  /-- The beginning of a sequence that is shown by indentation. -/
  | blockSequence
  /-- The beginning of a mapping that is shown by indentation. -/
  | blockMapping
  /-- The end of either. -/
  | blockEnd
  | opening (kind : Bracket)
  | closing (kind : Bracket)
  | comma
  /-- The dash in front of an item. -/
  | item
  /-- The place in front of a key. -/
  | key
  /-- The place in front of a value. -/
  | value
  /-- A reference to an anchor. -/
  | alias (name : String)
  /-- A name for what follows. -/
  | anchor (name : String)
  /-- A tag for what follows: its handle, and the rest of it. -/
  | tag (handle : String) (suffix : Tag)
  | text (style : Style) (value : String)
  deriving DecidableEq

/-! ### Anchors and aliases -/

/-- Whether a name may end in front of what follows. -/
def endsName (rest : List Char) : Bool :=
  atGap rest || (rest.head?.map "?:,]\x7d%@`".toList.contains).getD false

/-- The name behind `&` or `*`. -/
def readName (text : List Char) : Option (String × List Char) :=
  let (name, rest) := text.span isNameChar
  if !name.isEmpty && endsName rest then some (String.ofList name, rest) else none

/-! ### Directives -/

/-- The number of at most nine digits at the head of a text. -/
def readVersionNumber (text : List Char) : Option (Nat × List Char) :=
  let (digits, rest) := text.span Char.isDigit
  if digits.isEmpty || 9 < digits.length then none
  else some (Nat.ofDigitChars 10 digits 0, rest)

/-- The version behind `%YAML`. -/
def readVersion (text : List Char) : Option (Token × List Char) :=
  match readVersionNumber (text.dropWhile isBlank) with
  | some (major, '.' :: rest) =>
    (readVersionNumber rest).map fun (minor, rest) => (.version major minor, rest)
  | _ => none

/-- The handle and its meaning behind `%TAG`. -/
def readHandleMeaning (text : List Char) : Option (Token × List Char) :=
  (readHandle (text.dropWhile isBlank)).bind fun (handle, rest) =>
    if (handle = ['!'] || isFullHandle handle) && (rest.head?.map isBlank).getD false then
      (readTagChars true (rest.dropWhile isBlank)).bind fun (meaning, rest) =>
        if !meaning.isEmpty && atGap rest then
          some (.handle (String.ofList handle) meaning.upToNull, rest)
        else none
    else none

/-- The directive behind a percent sign at the start of a line.  A comment may
follow it, and its line break goes with it. -/
def readDirective (text : List Char) : Option (Token × List Char) :=
  let (name, rest) := text.span isNameChar
  let read :=
    if !atGap rest then none
    else if name = "YAML".toList then readVersion rest
    else if name = "TAG".toList then readHandleMeaning rest
    else none
  read.bind fun (token, rest) => (nextLine? rest).map fun rest => (token, rest)

end TerseSchema.Yaml
