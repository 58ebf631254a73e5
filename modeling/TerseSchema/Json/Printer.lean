import TerseSchema.Number.Shortest
import TerseSchema.Value

/-!
# Printing JSON texts

A value is printed over several lines: an item or a field a line, two spaces
deeper than what holds it.  Empty arrays and objects take no line of their own.

## Main definitions

* `Json.quote` — a text between quotes, with what has to be escaped.
* `Json.render` — the lines of a value as one text.
-/

namespace TerseSchema

/-- The text of a number: an integer in decimal, a double in its shortest form, in
which an exponent has a sign. -/
def Number.text : Number → String
  | .int z => toString z
  | .float x => x.text "+"

namespace Json

/-- A character inside quotes.  Quotes, backslashes and control characters are
escaped, the latter by number where they have no letter. -/
def escape (c : Char) : List Char :=
  match c with
  | '"' => ['\\', '"']
  | '\\' => ['\\', '\\']
  | '\x08' => ['\\', 'b']
  | '\x0c' => ['\\', 'f']
  | '\n' => ['\\', 'n']
  | '\x0d' => ['\\', 'r']
  | '\t' => ['\\', 't']
  | c =>
    if c.toNat < 0x20 then
      ['\\', 'u', '0', '0', Nat.digitChar (c.toNat / 16), Nat.digitChar (c.toNat % 16)]
    else [c]

/-- A text between quotes. -/
def quote (s : String) : String := String.ofList ('"' :: s.toList.flatMap escape ++ ['"'])

/-- The start of a line at a depth. -/
def newline (depth : Nat) : String := String.ofList ('\n' :: List.replicate (2 * depth) ' ')

/-- Lays out the parts of an array or object at a depth, between its brackets. -/
def block (opener closer : String) (depth : Nat) (parts : List String) : String :=
  if parts.isEmpty then opener ++ closer
  else opener ++ newline (depth + 1) ++ ("," ++ newline (depth + 1)).intercalate parts ++
    newline depth ++ closer

mutual

/-- The text of a value whose first line stands at a depth. -/
def renderAt (depth : Nat) : Value → String
  | .null => "null"
  | .bool b => toString b
  | .num n => n.text
  | .str s => quote s
  | .arr items => block "[" "]" depth (renderItems (depth + 1) items)
  | .obj fields => block "\x7b" "\x7d" depth (renderFields (depth + 1) fields)

/-- The texts of the items of an array. -/
def renderItems (depth : Nat) : List Value → List String
  | [] => []
  | v :: items => renderAt depth v :: renderItems depth items

/-- The texts of the fields of an object. -/
def renderFields (depth : Nat) : List (String × Value) → List String
  | [] => []
  | (key, v) :: fields => (quote key ++ ": " ++ renderAt depth v) :: renderFields depth fields

end

/-- The text of a value. -/
def render (v : Value) : String := renderAt 0 v

end Json

end TerseSchema
