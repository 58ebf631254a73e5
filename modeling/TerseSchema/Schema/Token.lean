import TerseSchema.Schema.Error
import TerseSchema.Text.Blank

/-!
# Tokens of a schema text

A schema text is read as a list of tokens: quoted literals, opening and closing
brackets, and all other characters one by one.  White space outside literals
leaves no token, and nothing inside a literal is structure.

## Main definitions

* `Bracket`, `Token` — the tokens.
* `Reader.step` — reads one character.
* `tokenize` — the tokens of a text, or the quote that is never closed.

Offsets count the bytes of the text in UTF-8.
-/

namespace TerseSchema

/-- The two kinds of groups. -/
inductive Bracket where
  /-- `[` and `]`. -/
  | square
  /-- `{` and `}`. -/
  | curly
  deriving DecidableEq

namespace Bracket

/-- The character that opens a group. -/
def opener : Bracket → Char
  | .square => '['
  | .curly => '{'

/-- The character that closes a group. -/
def closer : Bracket → Char
  | .square => ']'
  | .curly => '}'

end Bracket

/-- One token of a schema text. -/
inductive Token where
  /-- A quoted literal, without its quotes. -/
  | literal (text : List Char)
  | opening (kind : Bracket) (offset : Nat)
  | closing (kind : Bracket) (offset : Nat)
  /-- Any other character. -/
  | plain (c : Char)
  deriving DecidableEq

/-- The token of a character outside literals; white space has none. -/
def Token.ofChar? (c : Char) (offset : Nat) : Option Token :=
  match c with
  | '[' => some (.opening .square offset)
  | '{' => some (.opening .curly offset)
  | ']' => some (.closing .square offset)
  | '}' => some (.closing .curly offset)
  | c => if isBlank c then none else some (.plain c)

/-- What has been read of a text. -/
structure Reader where
  /-- The bytes read so far. -/
  offset : Nat := 0
  /-- The literal being read, if any: the offset of its quote, and its characters,
  the last one first. -/
  literal : Option (Nat × List Char) := none
  /-- The tokens read so far, the last one first. -/
  tokens : List Token := []

namespace Reader

/-- Reads one character. -/
def step (r : Reader) (c : Char) : Reader :=
  let offset := r.offset + c.utf8Size
  match r.literal with
  | some (start, body) =>
    if c = '"' then ⟨offset, none, .literal body.reverse :: r.tokens⟩
    else ⟨offset, some (start, c :: body), r.tokens⟩
  | none =>
    if c = '"' then ⟨offset, some (r.offset, []), r.tokens⟩
    else ⟨offset, none, (Token.ofChar? c r.offset).toList ++ r.tokens⟩

/-- Reads a text. -/
def run (r : Reader) (text : List Char) : Reader := text.foldl step r

@[simp] theorem run_nil (r : Reader) : r.run [] = r := rfl

@[simp] theorem run_cons (r : Reader) (c : Char) (text : List Char) :
    r.run (c :: text) = (r.step c).run text := rfl

/-- Reading goes on where it stopped. -/
@[simp] theorem run_append (r : Reader) (a b : List Char) : r.run (a ++ b) = (r.run a).run b :=
  List.foldl_append

end Reader

/-- The tokens of a text, in order; fails on a literal that is never closed. -/
def tokenize (text : List Char) : Except SchemaError (List Token) :=
  let r := ({} : Reader).run text
  match r.literal with
  | some (start, _) => .error (.missingClosingQuote start)
  | none => .ok r.tokens.reverse

end TerseSchema
