import TerseSchema.Json.Numeral

/-!
# Tokens of JSON texts

A JSON text is a row of signs, quoted texts and words, with white space between
them; a word is a numeral or one of `true`, `false` and `null`.

## Main definitions

* `Json.Token` — the tokens.
* `Json.unquote` — the characters that the inside of a quoted text stands for.
* `Json.Lexer.step` — reads one character.
* `Json.tokens?` — the tokens of a text; none if there is a fault.
-/

namespace TerseSchema.Json

/-- The signs that give a JSON text its structure. -/
inductive Sign where
  | openArray
  | closeArray
  | openObject
  | closeObject
  | comma
  | colon
  deriving DecidableEq

/-- The sign a character is. -/
def Sign.ofChar? : Char → Option Sign
  | '[' => some .openArray
  | ']' => some .closeArray
  | '\x7b' => some .openObject
  | '\x7d' => some .closeObject
  | ',' => some .comma
  | ':' => some .colon
  | _ => none

/-- One token of a JSON text. -/
inductive Token where
  | sign (sign : Sign)
  /-- A quoted text. -/
  | text (value : String)
  /-- A word that stands for a value. -/
  | word (value : Value)
  deriving DecidableEq

/-! ### Quoted texts -/

/-- A piece of a quoted text: a character, or a numbered unit of sixteen bits. -/
inductive Piece where
  | char (c : Char)
  | unit (n : Nat)
  deriving DecidableEq

/-- The value of a hexadecimal digit. -/
def hexDigit? (c : Char) : Option Nat :=
  if c.isDigit then some (c.toNat - '0'.toNat)
  else if 'a' ≤ c ∧ c ≤ 'f' then some (c.toNat - 'a'.toNat + 10)
  else if 'A' ≤ c ∧ c ≤ 'F' then some (c.toNat - 'A'.toNat + 10)
  else none

/-- The number that hexadecimal digits denote. -/
def hexNumber? (digits : List Char) : Option Nat :=
  (digits.mapM hexDigit?).map fun values => values.foldl (fun n d => 16 * n + d) 0

/-- The character behind a backslash that needs no number. -/
def escaped? : Char → Option Char
  | '"' => some '"'
  | '\\' => some '\\'
  | '/' => some '/'
  | 'b' => some '\x08'
  | 'f' => some '\x0c'
  | 'n' => some '\n'
  | 'r' => some '\x0d'
  | 't' => some '\t'
  | _ => none

/-- The pieces of a quoted text; control characters must be written as escapes. -/
def pieces? : List Char → Option (List Piece)
  | [] => some []
  | '\\' :: 'u' :: a :: b :: c :: d :: rest =>
    match hexNumber? [a, b, c, d] with
    | some n => (pieces? rest).map (.unit n :: ·)
    | none => none
  | '\\' :: c :: rest =>
    match escaped? c with
    | some c => (pieces? rest).map (.char c :: ·)
    | none => none
  | c :: rest => if c.toNat < 0x20 then none else (pieces? rest).map (.char c :: ·)

/-- Whether a unit is the first of a pair. -/
def isLeading (n : Nat) : Bool := 0xD800 ≤ n && n < 0xDC00

/-- Whether a unit is the second of a pair. -/
def isTrailing (n : Nat) : Bool := 0xDC00 ≤ n && n < 0xE000

/-- The characters of pieces.  The two units of a pair stand for one character, and
neither may stand alone. -/
def join? : List Piece → Option (List Char)
  | [] => some []
  | .char c :: rest => (join? rest).map (c :: ·)
  | .unit a :: .unit b :: rest =>
    if isLeading a then
      if isTrailing b then
        (join? rest).map (Char.ofNat (0x10000 + (a - 0xD800) * 0x400 + (b - 0xDC00)) :: ·)
      else none
    else if isTrailing a then none
    else (join? (.unit b :: rest)).map (Char.ofNat a :: ·)
  | .unit a :: rest =>
    if isLeading a || isTrailing a then none else (join? rest).map (Char.ofNat a :: ·)

/-- The characters that the inside of a quoted text stands for. -/
def unquote (inside : List Char) : Option String :=
  ((pieces? inside).bind join?).map String.ofList

/-! ### Words -/

/-- The value of a word. -/
def readWord (word : List Char) : Option Value :=
  if word = ['t', 'r', 'u', 'e'] then some (.bool true)
  else if word = ['f', 'a', 'l', 's', 'e'] then some (.bool false)
  else if word = ['n', 'u', 'l', 'l'] then some .null
  else (readNumeral word).map .num

/-! ### The tokens of a text -/

/-- White space of JSON texts. -/
def isSpace (c : Char) : Bool := c = ' ' || c = '\t' || c = '\n' || c = '\x0d'

/-- What is being read. -/
inductive Mode where
  /-- Nothing in particular. -/
  | between
  /-- A word, its last character first. -/
  | word (body : List Char)
  /-- A quoted text, its last character first, and whether a backslash is open. -/
  | quoted (body : List Char) (backslash : Bool)

/-- What has been read of a text. -/
structure Lexer where
  /-- The tokens read, the last one first. -/
  tokens : List Token := []
  /-- What is being read. -/
  mode : Mode := .between

namespace Lexer

/-- Ends the word being read, if any. -/
def endWord (r : Lexer) : Option Lexer :=
  match r.mode with
  | .word body => (readWord body.reverse).map fun v => ⟨.word v :: r.tokens, .between⟩
  | _ => some r

/-- Reads one character. -/
def step (r : Lexer) (c : Char) : Option Lexer :=
  match r.mode with
  | .quoted body true => some ⟨r.tokens, .quoted (c :: body) false⟩
  | .quoted body false =>
    if c = '"' then (unquote body.reverse).map fun t => ⟨.text t :: r.tokens, .between⟩
    else some ⟨r.tokens, .quoted (c :: body) (c = '\\')⟩
  | mode =>
    match Sign.ofChar? c with
    | some s => r.endWord.map fun r => ⟨.sign s :: r.tokens, .between⟩
    | none =>
      if isSpace c then r.endWord
      else if c = '"' then r.endWord.map fun r => ⟨r.tokens, .quoted [] false⟩
      else match mode with
        | .word body => some ⟨r.tokens, .word (c :: body)⟩
        | _ => some ⟨r.tokens, .word [c]⟩

end Lexer

/-- The tokens of a text; none if a word or a quoted text is faulty or a quoted
text is never closed. -/
def tokens? (text : List Char) : Option (List Token) :=
  match (text.foldlM Lexer.step {}).bind Lexer.endWord with
  | some ⟨tokens, .between⟩ => some tokens.reverse
  | _ => none

end TerseSchema.Json
