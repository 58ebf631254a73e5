import TerseSchema.Yaml.Cursor

/-!
# Block texts of YAML

A block text begins with `|` or `>` at the end of a line and consists of the
lines below it that are indented.  Its header may say how deeply, and what
becomes of the line breaks at its end.  Behind `>` the lines are folded, except
those that begin with a blank.

## Main definitions

* `Yaml.Line`, `Yaml.lines` — the lines of a text.
* `Yaml.Header`, `Yaml.Header.read` — the header of a block text.
* `Yaml.blockText` — the text, and what is left behind it; none if there is a
  fault.
-/

namespace TerseSchema.Yaml

/-- A line of a text. -/
structure Line where
  /-- Its characters. -/
  body : List Char
  /-- Its line break as a text keeps it; nothing at the end of the text. -/
  ending : List Char
  /-- The number of characters with the line break. -/
  width : Nat

/-- The lines of a text; the last one has no line break. -/
def lines : List Char → List Line
  | [] => [⟨[], [], 0⟩]
  | '\x0d' :: '\n' :: rest => ⟨[], ['\n'], 2⟩ :: lines rest
  | c :: rest =>
    if isBreak c then ⟨[], breakText c, 1⟩ :: lines rest
    else match lines rest with
      | [] => [⟨[c], [], 1⟩]
      | line :: more => ⟨c :: line.body, line.ending, line.width + 1⟩ :: more

/-- What becomes of the line breaks at the end of a block text. -/
inductive Chomping where
  /-- Of several, one stays. -/
  | clip
  /-- None stays. -/
  | strip
  /-- All stay. -/
  | keep

/-- The header of a block text. -/
structure Header where
  /-- What becomes of the line breaks at the end. -/
  chomping : Chomping := .clip
  /-- How much deeper the lines are indented than what is around them, if said. -/
  increment : Option Nat := none

namespace Header

/-- The sign for what becomes of the line breaks at the end. -/
def chomping? : Char → Option Chomping
  | '+' => some .keep
  | '-' => some .strip
  | _ => none

/-- A digit for the indentation; it is not zero. -/
def increment? (c : Char) : Option Nat :=
  if c.isDigit && c ≠ '0' then some (c.toNat - '0'.toNat) else none

/-- The header at the start of what follows `|` or `>`, and what is left behind the
line it stands on.  Its two signs come in any order, and a comment may follow. -/
def read (text : List Char) : Option (Header × List Char) :=
  let (header, rest) : Header × List Char :=
    match text with
    | a :: b :: rest =>
      match chomping? a, increment? a, chomping? b, increment? b with
      | some chomping, _, _, some n | _, some n, some chomping, _ => (⟨chomping, some n⟩, rest)
      | some chomping, _, _, _ => (⟨chomping, none⟩, b :: rest)
      | _, some n, _, _ => (⟨.clip, some n⟩, b :: rest)
      | _, _, _, _ => ({}, text)
    | [a] =>
      match chomping? a, increment? a with
      | some chomping, _ => (⟨chomping, none⟩, [])
      | _, some n => (⟨.clip, some n⟩, [])
      | _, _ => ({}, text)
    | [] => ({}, [])
  (nextLine? rest).map fun rest => (header, rest)

end Header

/-- How deeply a line is indented, looking no further than `limit`. -/
def indentation (limit : Option Nat) (line : Line) : Nat :=
  let spaces := (line.body.takeWhile (· = ' ')).length
  match limit with
  | some limit => min spaces limit
  | none => spaces

/-- Whether a tab stands where a line could still be indented. -/
def tabInIndentation (limit : Option Nat) (line : Line) : Bool :=
  let column := indentation limit line
  (limit.all fun limit => column < limit) && (line.body.drop column).head? = some '\t'

/-- Whether a line holds no more than its indentation, and is not the last one. -/
def isEmptyLine (limit : Option Nat) (line : Line) : Bool :=
  (line.body.drop (indentation limit line)).isEmpty && !line.ending.isEmpty

/-- The indentation of a block text whose header does not say it: the deepest one
up to the first line that is not empty, but not less than `least`.  None where a
tab is in the way. -/
def detectIndentation (least : Nat) : List Line → Option Nat
  | [] => some least
  | line :: more =>
    if tabInIndentation none line then none
    else
      let deepest := max least (indentation none line)
      if isEmptyLine none line then detectIndentation deepest more else some deepest

/-- A block text being read. -/
structure BlockReader where
  /-- What has been read, the last character first. -/
  body : List Char := []
  /-- The line break of the last line that is not empty. -/
  ending : List Char := []
  /-- The line breaks of the empty lines behind it. -/
  empty : List Char := []
  /-- Whether that last line begins with a blank. -/
  blank : Bool := false

namespace BlockReader

/-- Reads a line that is not empty, given without its indentation. -/
def line (r : BlockReader) (folded : Bool) (body ending : List Char) : BlockReader :=
  let blank := (body.head?.map isBlank).getD false
  let join :=
    if folded && r.ending = ['\n'] && !r.blank && !blank then
      if r.empty.isEmpty then [' '] else []
    else r.ending
  ⟨body.reverse ++ r.empty.reverse ++ join.reverse ++ r.body, ending, [], blank⟩

/-- The text that has been read. -/
def text (r : BlockReader) (chomping : Chomping) : String :=
  String.ofList <| r.body.reverse ++
    match chomping with
    | .clip => r.ending
    | .strip => []
    | .keep => r.ending ++ r.empty

/-- Reads the lines of a block text up to the first one that is not indented deeply
enough; gives what has been read and the characters it took. -/
def run (r : BlockReader) (folded : Bool) (indent width : Nat) :
    List Line → Option (BlockReader × Nat)
  | [] => some (r, width)
  | line :: more =>
    if tabInIndentation (some indent) line then none
    else if isEmptyLine (some indent) line then
      run { r with empty := r.empty ++ line.ending } folded indent (width + line.width) more
    else
      let body := line.body.drop indent
      if indentation (some indent) line = indent ∧ body ≠ [] then
        run (r.line folded body line.ending) folded indent (width + line.width) more
      else some (r, width)

end BlockReader

/-- The block text whose header stands at the start of `text`; `indent` is one more
than the indentation of what is around it. -/
def blockText (folded : Bool) (indent : Nat) (text : List Char) :
    Option (String × List Char) :=
  (Header.read text).bind fun (header, rest) =>
    let lines := lines rest
    let depth :=
      match header.increment with
      | some n => some (indent - 1 + n)
      | none => detectIndentation (max indent 1) lines
    depth.bind fun depth =>
      (({} : BlockReader).run folded depth 0 lines).map fun (r, width) =>
        (r.text header.chomping, rest.drop width)

end TerseSchema.Yaml
