import TerseSchema.Yaml.Cursor

/-!
# Folding of lines

A quoted or plain YAML text may run over several lines.  Blanks around a line
break are dropped, one line break between two lines is read as a space, and of
more than one the first is dropped.

## Main definitions

* `Yaml.Gap` — the white space behind the last character that stands.
* `Yaml.Folding` — a text being folded, with one function for each kind of
  character that may follow.
-/

namespace TerseSchema.Yaml

/-- White space that has been read but not yet written. -/
inductive Gap where
  | none
  /-- Blanks within a line, the last one first. -/
  | blanks (run : List Char)
  /-- A first line break, as it is kept, and the ones after it. -/
  | lines (first more : List Char)

/-- A text being folded. -/
structure Folding where
  /-- What stands, the last character first. -/
  body : List Char := []
  /-- The white space behind it. -/
  gap : Gap := .none

namespace Folding

/-- What stands once the white space is written out. -/
def settled (f : Folding) : List Char :=
  match f.gap with
  | .none => f.body
  | .blanks run => run ++ f.body
  | .lines ['\n'] [] => ' ' :: f.body
  | .lines ['\n'] more => more.reverse ++ f.body
  | .lines first more => more.reverse ++ first.reverse ++ f.body

/-- A character that is no white space. -/
def char (f : Folding) (c : Char) : Folding := ⟨c :: f.settled, .none⟩

/-- A blank; at the start or the end of a line it is dropped. -/
def blank (f : Folding) (c : Char) : Folding :=
  match f.gap with
  | .none => ⟨f.body, .blanks [c]⟩
  | .blanks run => ⟨f.body, .blanks (c :: run)⟩
  | .lines _ _ => f

/-- A line break, as it is kept. -/
def line (f : Folding) (kept : List Char) : Folding :=
  match f.gap with
  | .lines first more => ⟨f.body, .lines first (more ++ kept)⟩
  | _ => ⟨f.body, .lines kept []⟩

/-- A line break that is written as nothing. -/
def joinLines (f : Folding) : Folding := ⟨f.settled, .lines [] []⟩

/-- Whether a line break was read last, apart from blanks. -/
def broken (f : Folding) : Bool :=
  match f.gap with
  | .lines _ _ => true
  | _ => false

/-- Whether white space was read last. -/
def inGap (f : Folding) : Bool :=
  match f.gap with
  | .none => false
  | _ => true

/-- The text, with the white space at its end. -/
def text (f : Folding) : String := String.ofList f.settled.reverse

/-- The text, without the white space at its end. -/
def trimmed (f : Folding) : String := String.ofList f.body.reverse

end Folding

end TerseSchema.Yaml
