/-!
# Places in YAML texts

YAML gives a meaning to lines and columns.  A cursor is what is left of a text
together with the place where that begins.

## Main definitions

* `Yaml.isPrintable`, `Yaml.isBreak`, `Yaml.isBlank`, `Yaml.isNameChar` — classes of
  characters.
* `Yaml.atGap`, `Yaml.atMarker` — what a text goes on with.
* `Yaml.breakText` — a line break as a text keeps it.
* `Yaml.nextLine?` — the lines below one that holds nothing more.
* `Yaml.Cursor` — a place; `Yaml.Cursor.moveTo` goes to what is left later.

A line break is a line feed, a carriage return, the two in that order, U+0085,
U+2028 or U+2029.
-/

namespace TerseSchema.Yaml

/-- Whether a YAML text may hold a character. -/
def isPrintable (c : Char) : Bool :=
  let n := c.toNat
  n = 0x9 || n = 0xA || n = 0xD || (0x20 ≤ n && n ≤ 0x7E) || n = 0x85 ||
    (0xA0 ≤ n && n ≤ 0xD7FF) || (0xE000 ≤ n && n ≤ 0xFFFD) || 0x10000 ≤ n

/-- Whether a character ends a line. -/
def isBreak (c : Char) : Bool :=
  c = '\n' || c = '\x0d' || c = '\u0085' || c = '\u2028' || c = '\u2029'

/-- A space or a tab. -/
def isBlank (c : Char) : Bool := c = ' ' || c = '\t'

/-- A character of a name: an ASCII letter or digit, a dash or an underscore. -/
def isNameChar (c : Char) : Bool := c.isAlphanum || c = '-' || c = '_'

/-- Whether a text ends, or goes on with a blank or a line break. -/
def atGap : List Char → Bool
  | [] => true
  | c :: _ => isBlank c || isBreak c

/-- Whether a text goes on with three times the character `c`, and then a gap. -/
def atMarker (c : Char) : List Char → Bool
  | x :: y :: z :: rest => x = c && y = c && z = c && atGap rest
  | _ => false

/-- Whether a text goes on with one of the two markers between documents. -/
def atDocumentMarker (text : List Char) : Bool := atMarker '-' text || atMarker '.' text

/-- A line break as a text keeps it: only U+2028 and U+2029 stay what they are. -/
def breakText (c : Char) : List Char :=
  if c = '\u2028' ∨ c = '\u2029' then [c] else ['\n']

/-- The lines below one that holds nothing more than blanks and a comment; none if
there is anything else on it. -/
def nextLine? (text : List Char) : Option (List Char) :=
  let rest := text.dropWhile isBlank
  let rest := if rest.head? = some '#' then rest.dropWhile (!isBreak ·) else rest
  match rest with
  | [] => some []
  | '\x0d' :: '\n' :: rest => some rest
  | c :: rest => if isBreak c then some rest else none

/-- What is left of a text, and the place where that begins. -/
structure Cursor where
  /-- What is left. -/
  rest : List Char
  /-- The bytes in front of it, in UTF-8. -/
  index : Nat := 0
  /-- The line breaks in front of it. -/
  line : Nat := 0
  /-- The characters in front of it on its line. -/
  column : Nat := 0

namespace Cursor

/-- Goes one character on.  Of a carriage return and a line feed, the second one
ends the line. -/
def next (c : Cursor) : Cursor :=
  match c.rest with
  | [] => c
  | '\x0d' :: '\n' :: rest => ⟨'\n' :: rest, c.index + 1, c.line, c.column + 1⟩
  | x :: rest =>
    if isBreak x then ⟨rest, c.index + x.utf8Size, c.line + 1, 0⟩
    else ⟨rest, c.index + x.utf8Size, c.line, c.column + 1⟩

/-- Goes some characters on. -/
def skip : Nat → Cursor → Cursor
  | 0, c => c
  | n + 1, c => skip n c.next

/-- Goes on to a place at which `rest` is left. -/
def moveTo (c : Cursor) (rest : List Char) : Cursor := c.skip (c.rest.length - rest.length)

end Cursor

end TerseSchema.Yaml
