import TerseSchema.Yaml.Folding

/-!
# Plain YAML texts

A text without quotes ends where a colon and a gap, or a comment, begins; inside
brackets also at a bracket or comma, and outside them at a line that is not
indented deeply enough.

## Main definitions

* `Yaml.startsPlain` — whether a plain text begins at a place.
* `Yaml.plainText` — the text, whether a line break follows it, and what is left
  behind that white space; none if there is a fault.
-/

namespace TerseSchema.Yaml

/-- The characters that stand for structure, and begin no plain text. -/
def isIndicator (c : Char) : Bool := "-?:,[]\x7b\x7d#&*!|>'\"%@`".toList.contains c

/-- Whether a plain text begins with `c` and goes on with `rest`; `flow` says
whether that is inside brackets.  A dash may begin one if no blank follows, and
outside brackets a question mark or colon if no gap follows. -/
def startsPlain (flow : Bool) (c : Char) (rest : List Char) : Bool :=
  if c = '-' then !(rest.head?.map isBlank).getD false
  else if c = '?' ∨ c = ':' then !flow && !atGap rest
  else !isIndicator c && !isBlank c && !isBreak c

/-- A bracket or a comma. -/
def isFlowIndicator (c : Char) : Bool := ",[]\x7b\x7d".toList.contains c

/-- Whether a colon that belongs to a plain text is out of place: inside brackets
none may stand in front of a sign. -/
def strayColon (flow : Bool) (c : Char) (rest : List Char) : Bool :=
  flow && c = ':' && (rest.head?.map fun x => x = '?' || isFlowIndicator x).getD false

/-- Whether a plain text ends within a line, in front of `c`. -/
def endsPlain (flow : Bool) (c : Char) (rest : List Char) : Bool :=
  (c = ':' && atGap rest) || (flow && isFlowIndicator c)

/-- Whether a plain text ends at the beginning of a word, in front of `c`: a line
that is not indented deeply enough, a marker between documents, or a comment. -/
def endsAtWord (f : Folding) (flow : Bool) (indent column : Nat) (c : Char) (rest : List Char) :
    Bool :=
  (f.broken && !flow && column < indent) ||
    (f.broken && column = 0 && atDocumentMarker (c :: rest)) || (f.inGap && c = '#')

/-- The rest of a plain text.  A continued line has to be indented by `indent`, and
`column` counts the blanks at its start.  The end comes with whether a line break
was read, and with what is left behind the white space. -/
def plainText (flow : Bool) (indent : Nat) (f : Folding) (column : Nat) :
    List Char → Option (String × Bool × List Char)
  | [] => some (f.trimmed, f.broken, [])
  | '\x0d' :: '\n' :: rest => plainText flow indent (f.line ['\n']) 0 rest
  | c :: rest =>
    if isBreak c then plainText flow indent (f.line (breakText c)) 0 rest
    else if isBlank c then
      if f.broken && c = '\t' && column < indent then none
      else plainText flow indent (f.blank c) (column + 1) rest
    else if endsAtWord f flow indent column c rest then some (f.trimmed, f.broken, c :: rest)
    else if strayColon flow c rest then none
    else if endsPlain flow c rest then some (f.trimmed, f.broken, c :: rest)
    else plainText flow indent (f.char c) column rest

end TerseSchema.Yaml
