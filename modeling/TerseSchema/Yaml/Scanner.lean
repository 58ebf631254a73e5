import TerseSchema.Yaml.Token

/-!
# From characters to YAML tokens

Outside brackets the columns of a YAML text show its structure: a dash, a question
mark or a key to the right of what is around it opens a block, and a line further
to the left closes one.  A key is known as such only when its colon comes, so the
place in front of every text that could be a key is kept in mind; a key stands on
one line and takes at most 1024 bytes.

## Main definitions

* `Yaml.Candidate` — a place in front of what may turn out to be a key.
* `Yaml.Scanner` — what has been read of a text.
* `Yaml.Scanner.token` — reads one token.
* `Yaml.scan` — the tokens of a text; none if there is a fault.
-/

namespace TerseSchema.Yaml

/-- A place in front of what may turn out to be a key. -/
structure Candidate where
  /-- The tokens in front of it. -/
  position : Nat
  /-- The bytes in front of it. -/
  index : Nat
  line : Nat
  column : Nat
  /-- Whether nothing but a key may stand there. -/
  required : Bool

/-- The most bytes that a key may take, in UTF-8. -/
def maxKeyLength : Nat := 1024

/-- Whether a candidate can no longer be a key when the reading has come to `c`. -/
def Candidate.isStale (k : Candidate) (c : Cursor) : Bool :=
  k.line < c.line || k.index + maxKeyLength < c.index

/-- What has been read of a text. -/
structure Scanner where
  /-- Where the reading has come to. -/
  cursor : Cursor
  /-- The tokens read, the last one first. -/
  tokens : List Token := []
  /-- The columns of the open blocks, the innermost first. -/
  blocks : List Nat := []
  /-- The candidate inside the innermost open bracket. -/
  candidate : Option Candidate := none
  /-- The candidates outside of each open bracket, the innermost first. -/
  outer : List (Option Candidate) := []
  /-- Whether a key may begin here. -/
  keyAllowed : Bool := true

namespace Scanner

/-- Whether a bracket is open. -/
def flow (s : Scanner) : Bool := !s.outer.isEmpty

/-- One more than the column of the innermost open block. -/
def indent (s : Scanner) : Nat := (s.blocks.head?.map (· + 1)).getD 0

/-- Adds a token. -/
def emit (s : Scanner) (t : Token) : Scanner := { s with tokens := t :: s.tokens }

/-- Adds a token in front of the one at `position`. -/
def emitAt (s : Scanner) (position : Nat) (t : Token) : Scanner :=
  { s with tokens := s.tokens.insertIdx (s.tokens.length - position) t }

/-- Goes on to where `rest` is left. -/
def moveTo (s : Scanner) (rest : List Char) : Scanner :=
  { s with cursor := s.cursor.moveTo rest }

/-- Goes some characters on. -/
def skip (s : Scanner) (n : Nat) : Scanner := { s with cursor := s.cursor.skip n }

/-- Says whether a key may begin here. -/
def allowKey (s : Scanner) (allowed : Bool) : Scanner := { s with keyAllowed := allowed }

/-! ### White space between tokens -/

/-- What is left behind white space and comments, and whether a key may begin
there.  Outside brackets a tab does not count as white space where a key may begin,
and a line break lets one begin.  A byte order mark at the start of a line is passed
over. -/
def skipSpace (flow : Bool) (keyAllowed lineStart comment : Bool) :
    List Char → List Char × Bool
  | [] => ([], keyAllowed)
  | c :: rest =>
    if isBreak c then skipSpace flow (keyAllowed || !flow) true false rest
    else if comment then skipSpace flow keyAllowed false true rest
    else if c = '\ufeff' && lineStart then skipSpace flow keyAllowed false false rest
    else if c = ' ' || (c = '\t' && (flow || !keyAllowed)) then
      skipSpace flow keyAllowed false false rest
    else if c = '#' then skipSpace flow keyAllowed false true rest
    else (c :: rest, keyAllowed)

/-- Goes on to the next token. -/
def toToken (s : Scanner) : Scanner :=
  let (rest, allowed) :=
    skipSpace s.flow s.keyAllowed (s.cursor.column = 0) false s.cursor.rest
  (s.moveTo rest).allowKey allowed

/-! ### Candidates -/

/-- Drops a candidate; none if it had to be a key. -/
def giveUp (s : Scanner) : Option Scanner :=
  if (s.candidate.map (·.required)).getD false then none
  else some { s with candidate := none }

/-- Drops the candidates that can no longer be keys; none if one had to be. -/
def dropStale (s : Scanner) : Option Scanner :=
  let stale (k : Option Candidate) : Bool := (k.map (·.isStale s.cursor)).getD false
  let kept (k : Option Candidate) : Option Candidate := if stale k then none else k
  if (s.candidate :: s.outer).any fun k => stale k && (k.map (·.required)).getD false then none
  else some { s with candidate := kept s.candidate, outer := s.outer.map kept }

/-- Keeps the place in mind if a key may begin here.  At the column of the block
that is open, nothing else may. -/
def mark (s : Scanner) : Option Scanner :=
  if s.keyAllowed then
    let c := s.cursor
    let required := !s.flow && s.blocks.head? = some c.column
    s.giveUp.map fun s =>
      { s with candidate := some ⟨s.tokens.length, c.index, c.line, c.column, required⟩ }
  else some s

/-! ### Blocks -/

/-- Opens a block at a column, unless a bracket is open or there is a block at that
column already; the token goes in front of the one at `position`. -/
def openBlock (s : Scanner) (column position : Nat) (t : Token) : Scanner :=
  if !s.flow && s.indent ≤ column then
    { s.emitAt position t with blocks := column :: s.blocks }
  else s

/-- Closes the blocks for which `left` holds of the column, up to the first for which
it does not; inside brackets no block ends. -/
def closeBlocks (s : Scanner) (left : Nat → Bool) : Scanner :=
  if s.flow then s
  else
    let closed := s.blocks.takeWhile left
    { s with
      tokens := List.replicate closed.length .blockEnd ++ s.tokens
      blocks := s.blocks.dropWhile left }

/-- Closes all blocks. -/
def closeAll (s : Scanner) : Scanner := s.closeBlocks fun _ => true

/-! ### Tokens -/

/-- Reads a directive. -/
def directive (s : Scanner) (rest : List Char) : Option Scanner :=
  s.closeAll.giveUp.bind fun s =>
    (readDirective rest).map fun (t, rest) => ((s.allowKey false).emit t).moveTo rest

/-- Reads a marker between documents. -/
def documentMarker (s : Scanner) (t : Token) : Option Scanner :=
  s.closeAll.giveUp.map fun s => ((s.allowKey false).emit t).skip 3

/-- Reads an opening bracket. -/
def opening (s : Scanner) (kind : Bracket) : Option Scanner :=
  s.mark.map fun s =>
    (({ s with outer := s.candidate :: s.outer, candidate := none }.allowKey true).emit
      (.opening kind)).skip 1

/-- Reads a closing bracket, also where none is open. -/
def closing (s : Scanner) (kind : Bracket) : Option Scanner :=
  s.giveUp.map fun s =>
    let s := match s.outer with
      | [] => s
      | k :: outer => { s with candidate := k, outer }
    ((s.allowKey false).emit (.closing kind)).skip 1

/-- Reads a comma. -/
def comma (s : Scanner) : Option Scanner :=
  s.giveUp.map fun s => ((s.allowKey true).emit .comma).skip 1

/-- Reads the dash in front of an item. -/
def item (s : Scanner) : Option Scanner :=
  if s.flow || s.keyAllowed then
    (s.openBlock s.cursor.column s.tokens.length .blockSequence).giveUp.map fun s =>
      ((s.allowKey true).emit .item).skip 1
  else none

/-- Reads the question mark in front of a key. -/
def explicitKey (s : Scanner) : Option Scanner :=
  if s.flow || s.keyAllowed then
    (s.openBlock s.cursor.column s.tokens.length .blockMapping).giveUp.map fun s =>
      ((s.allowKey !s.flow).emit .key).skip 1
  else none

/-- Reads the colon in front of a value.  What the candidate stands for is then a
key. -/
def value (s : Scanner) : Option Scanner :=
  match s.candidate with
  | some k =>
    let s := (s.emitAt k.position .key).openBlock k.column k.position .blockMapping
    some ((({ s with candidate := none }.allowKey false).emit .value).skip 1)
  | none =>
    if s.flow || s.keyAllowed then
      let s := s.openBlock s.cursor.column s.tokens.length .blockMapping
      some (((s.allowKey !s.flow).emit .value).skip 1)
    else none

/-- Adds what a reader has read. -/
def take (s : Scanner) (read : Option (Token × List Char)) : Option Scanner :=
  read.map fun (t, rest) => (s.emit t).moveTo rest

/-- Reads a token that may begin a key. -/
def marked (s : Scanner) (read : Option (Token × List Char)) : Option Scanner :=
  s.mark.bind fun s => (s.allowKey false).take read

/-- Reads a block text. -/
def block (s : Scanner) (style : Style) (rest : List Char) : Option Scanner :=
  s.giveUp.bind fun s =>
    (s.allowKey true).take <|
      (blockText (style = .folded) s.indent rest).map fun (t, rest) => (.text style t, rest)

/-- Reads a plain text.  A line break behind it lets a key begin. -/
def plain (s : Scanner) : Option Scanner :=
  s.mark.bind fun s =>
    (plainText s.flow s.indent {} 0 s.cursor.rest).map fun (t, broken, rest) =>
      ((s.allowKey broken).emit (.text .plain t)).moveTo rest

/-- Reads the token that begins with `c` and goes on with `rest`. -/
def token (s : Scanner) (c : Char) (rest : List Char) : Option Scanner :=
  let lineStart := s.cursor.column = 0
  if lineStart ∧ c = '%' then s.directive rest
  else if lineStart ∧ atMarker '-' (c :: rest) then s.documentMarker .documentStart
  else if lineStart ∧ atMarker '.' (c :: rest) then s.documentMarker .documentEnd
  else if c = '[' then s.opening .square
  else if c = '\x7b' then s.opening .curly
  else if c = ']' then s.closing .square
  else if c = '\x7d' then s.closing .curly
  else if c = ',' then s.comma
  else if c = '-' ∧ atGap rest then s.item
  else if c = '?' ∧ (s.flow ∨ atGap rest) then s.explicitKey
  else if c = ':' ∧ (s.flow ∨ atGap rest) then s.value
  else if c = '*' then s.marked ((readName rest).map fun (n, rest) => (.alias n, rest))
  else if c = '&' then s.marked ((readName rest).map fun (n, rest) => (.anchor n, rest))
  else if c = '!' then
    s.marked ((readTag s.flow (c :: rest)).map fun ((h, t), rest) => (.tag h t, rest))
  else if c = '|' ∧ !s.flow then s.block .literal rest
  else if c = '>' ∧ !s.flow then s.block .folded rest
  else if c = '\'' then
    s.marked ((singleQuoted {} rest).map fun (t, rest) => (.text .quoted t, rest))
  else if c = '"' then
    s.marked ((doubleQuoted {} .none rest).map fun (t, rest) => (.text .quoted t, rest))
  else if startsPlain s.flow c rest then s.plain
  else none

/-- Ends the reading. -/
def finish (s : Scanner) : Option (List Token) :=
  s.closeAll.giveUp.map fun s => s.tokens.reverse

/-- Reads what is left, `fuel` tokens at most. -/
def run : Nat → Scanner → Option (List Token)
  | 0, _ => none
  | fuel + 1, s =>
    s.toToken.dropStale.bind fun s =>
      let s := s.closeBlocks (s.cursor.column < ·)
      match s.cursor.rest with
      | [] => s.finish
      | c :: rest => (s.token c rest).bind (run fuel)

end Scanner

/-- The tokens of a text; every token takes at least one character. -/
def scan (text : String) : Option (List Token) :=
  let chars := text.toList
  if chars.all isPrintable then Scanner.run (chars.length + 1) { cursor := ⟨chars, 0, 0, 0⟩ }
  else none

end TerseSchema.Yaml
