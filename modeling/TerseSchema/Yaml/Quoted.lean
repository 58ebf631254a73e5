import TerseSchema.Json.Token
import TerseSchema.Yaml.Folding

/-!
# Quoted YAML texts

Between single quotes a quote is written twice and nothing else is special.
Between double quotes a backslash starts an escape, and at the end of a line
joins it to the next.  Lines are folded in both, and no line may look like a
marker between documents.

## Main definitions

* `Yaml.singleQuoted`, `Yaml.doubleQuoted` — the text up to the closing quote,
  and what is left behind it; none if there is a fault.
-/

namespace TerseSchema.Yaml

/-- Takes a line break within quotes, unless a marker between documents follows. -/
def breakWithin (f : Folding) (kept rest : List Char) : Option Folding :=
  if atDocumentMarker rest then none else some (f.line kept)

/-- The rest of a text between single quotes. -/
def singleQuoted (f : Folding) : List Char → Option (String × List Char)
  | [] => none
  | '\'' :: '\'' :: rest => singleQuoted (f.char '\'') rest
  | '\'' :: rest => some (f.text, rest)
  | '\x0d' :: '\n' :: rest => (breakWithin f ['\n'] rest).bind fun f => singleQuoted f rest
  | c :: rest =>
    if isBreak c then (breakWithin f (breakText c) rest).bind fun f => singleQuoted f rest
    else if isBlank c then singleQuoted (f.blank c) rest
    else singleQuoted (f.char c) rest

/-- The character behind a backslash that needs no number. -/
def escaped? : Char → Option Char
  | '0' => some '\x00'
  | 'a' => some '\x07'
  | 'b' => some '\x08'
  | 't' | '\t' => some '\t'
  | 'n' => some '\n'
  | 'v' => some '\x0b'
  | 'f' => some '\x0c'
  | 'r' => some '\x0d'
  | 'e' => some '\x1b'
  | ' ' => some ' '
  | '"' => some '"'
  | '/' => some '/'
  | '\\' => some '\\'
  | 'N' => some '\u0085'
  | '_' => some '\u00a0'
  | 'L' => some '\u2028'
  | 'P' => some '\u2029'
  | _ => none

/-- How many hexadecimal digits follow the letter of a numbered escape. -/
def escapeDigits? : Char → Option Nat
  | 'x' => some 2
  | 'u' => some 4
  | 'U' => some 8
  | _ => none

/-- The character with a number, if there is one. -/
def charOf? (n : Nat) : Option Char := if n.isValidChar then some (Char.ofNat n) else none

/-- What is being read of an escape. -/
inductive Escape where
  | none
  /-- Its backslash has been read. -/
  | backslash
  /-- So many digits are missing, and this number has been read. -/
  | digits (missing value : Nat)

/-- The rest of a text between double quotes. -/
def doubleQuoted (f : Folding) : Escape → List Char → Option (String × List Char)
  | _, [] => none
  | .digits missing value, c :: rest =>
    match Json.hexDigit? c with
    | none => none
    | some d =>
      if missing ≤ 1 then
        (charOf? (16 * value + d)).bind fun c => doubleQuoted (f.char c) .none rest
      else doubleQuoted f (.digits (missing - 1) (16 * value + d)) rest
  | .backslash, '\x0d' :: '\n' :: rest =>
    if atDocumentMarker rest then none else doubleQuoted f.joinLines .none rest
  | .backslash, c :: rest =>
    if isBreak c then
      if atDocumentMarker rest then none else doubleQuoted f.joinLines .none rest
    else match escapeDigits? c with
      | some n => doubleQuoted f (.digits n 0) rest
      | none => (escaped? c).bind fun c => doubleQuoted (f.char c) .none rest
  | .none, '"' :: rest => some (f.text, rest)
  | .none, '\\' :: rest => doubleQuoted f .backslash rest
  | .none, '\x0d' :: '\n' :: rest =>
    (breakWithin f ['\n'] rest).bind fun f => doubleQuoted f .none rest
  | .none, c :: rest =>
    if isBreak c then (breakWithin f (breakText c) rest).bind fun f => doubleQuoted f .none rest
    else if isBlank c then doubleQuoted (f.blank c) .none rest
    else doubleQuoted (f.char c) .none rest

end TerseSchema.Yaml
