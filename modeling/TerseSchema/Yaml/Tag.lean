import TerseSchema.Json.Token
import TerseSchema.Yaml.Cursor

/-!
# Tags of YAML texts

A tag names the type of what follows it.  Its characters may be written byte by
byte, and nothing says that such bytes make up a character: they only have to have
the form of one.  A tag ends in front of the character U+0000.

## Main definitions

* `Yaml.Tag` — a tag, as its characters.
* `Yaml.Tag.standard` — the tag of a standard type.
* `Yaml.Tag.own?` — the name of a tag of its own.
* `Yaml.readTag` — a tag as it is written: a handle and what follows it.
-/

namespace TerseSchema.Yaml

/-- A tag, as its characters; none stands for bytes that make up no character. -/
abbrev Tag := List (Option Char)

namespace Tag

/-- The tag that a text spells out. -/
def ofString (text : String) : Tag := text.toList.map some

/-- What a tag of a standard type begins with. -/
def standardPrefix : Tag := ofString "tag:yaml.org,2002:"

/-- The tag of a standard type. -/
def standard (name : String) : Tag := standardPrefix ++ ofString name

/-- Whether a tag begins with an exclamation mark. -/
def isOwn (t : Tag) : Bool := t.head? = some (some '!')

/-- A text without an exclamation mark in front of it. -/
def unmark : List Char → List Char
  | '!' :: c :: rest => c :: rest
  | text => text

/-- The name of a tag of its own, if it is a text: what follows one exclamation mark
or two. -/
def own? (t : Tag) : Option String :=
  if t.isOwn then (t.mapM fun c => c).map fun text => String.ofList (unmark (unmark text))
  else none

/-- What is in front of the character U+0000. -/
def upToNull (t : Tag) : Tag := t.takeWhile (· ≠ some '\x00')

end Tag

/-! ### Characters of tags -/

/-- A character of a tag; a comma and square brackets may stand only between angle
brackets. -/
def isTagChar (verbatim : Bool) (c : Char) : Bool :=
  isNameChar c || ";/?:@&=+$.%!~*'()".toList.contains c || (verbatim && ",[]".toList.contains c)

/-- How many bytes the character takes whose first byte is `b`. -/
def byteCount? (b : Nat) : Option Nat :=
  if b < 0x80 then some 1
  else if 0xC0 ≤ b ∧ b < 0xE0 then some 2
  else if 0xE0 ≤ b ∧ b < 0xF0 then some 3
  else if 0xF0 ≤ b ∧ b < 0xF8 then some 4
  else none

/-- The character that `count` bytes make up whose bits are those of `value`: there
is one if its UTF-8 form takes as many bytes. -/
def charOfBytes (count value : Nat) : Option Char :=
  let c := Char.ofNat value
  if c.toNat = value ∧ c.utf8Size = count then some c else none

/-- What has been read of a character that is written byte by byte. -/
inductive Bytes where
  | none
  /-- The first of `count` bytes, with the bits in `value`; so many are `missing`. -/
  | some (count missing value : Nat)

/-- The characters of a tag, in which a character may be written as the bytes of
its UTF-8 form, each behind a percent sign. -/
def unescapeTag (bytes : Bytes) : List Char → Option Tag
  | '%' :: a :: b :: rest =>
    match Json.hexNumber? [a, b], bytes with
    | .none, _ => .none
    | .some n, .none =>
      match byteCount? n with
      | .none => .none
      | .some 1 => (unescapeTag .none rest).map (charOfBytes 1 n :: ·)
      | .some count => unescapeTag (.some count (count - 1) (n % pow2 (7 - count))) rest
    | .some n, .some count missing value =>
      if n < 0x80 ∨ 0xC0 ≤ n then .none
      else
        let value := value * 64 + n % 64
        if missing ≤ 1 then (unescapeTag .none rest).map (charOfBytes count value :: ·)
        else unescapeTag (.some count (missing - 1) value) rest
  | c :: rest =>
    match bytes with
    | .none => if c = '%' then .none else (unescapeTag .none rest).map (.some c :: ·)
    | .some _ _ _ => .none
  | [] =>
    match bytes with
    | .none => .some []
    | .some _ _ _ => .none

/-- The tag characters at the head of a text. -/
def readTagChars (verbatim : Bool) (text : List Char) : Option (Tag × List Char) :=
  let (raw, rest) := text.span (isTagChar verbatim)
  (unescapeTag .none raw).map fun chars => (chars, rest)

/-! ### Tags -/

/-- The handle at the head of a text: an exclamation mark, name characters and, if
it follows, an exclamation mark. -/
def readHandle : List Char → Option (List Char × List Char)
  | '!' :: rest =>
    let (name, rest) := rest.span isNameChar
    match rest with
    | '!' :: rest => some ('!' :: name ++ ['!'], rest)
    | rest => some ('!' :: name, rest)
  | _ => none

/-- Whether a handle has a second exclamation mark. -/
def isFullHandle (handle : List Char) : Bool :=
  2 ≤ handle.length && handle.getLast? = some '!'

/-- The tag at the head of a text, before a look at what ends it.  A tag between
angle brackets has no handle, and neither has an exclamation mark on its own. -/
def readTagBody (text : List Char) : Option ((String × Tag) × List Char) :=
  match text with
  | '!' :: '<' :: rest =>
    match readTagChars true rest with
    | some (c :: chars, '>' :: rest) => some (("", Tag.upToNull (c :: chars)), rest)
    | _ => none
  | text =>
    (readHandle text).bind fun (handle, rest) =>
      (readTagChars false rest).bind fun (chars, rest) =>
        if isFullHandle handle then
          if chars.isEmpty then none
          else some ((String.ofList handle, Tag.upToNull chars), rest)
        else
          let suffix := Tag.upToNull ((handle.drop 1).map some ++ chars)
          if suffix.isEmpty then some (("", Tag.ofString "!"), rest)
          else some (("!", suffix), rest)

/-- The tag at the head of a text: its handle, and the rest of it.  A gap ends it,
and inside brackets a comma. -/
def readTag (flow : Bool) (text : List Char) : Option ((String × Tag) × List Char) :=
  (readTagBody text).bind fun (tag, rest) =>
    if atGap rest || (flow && rest.head? = some ',') then some (tag, rest) else none

/-! ### Handles -/

/-- What handles stand for. -/
abbrev Handles := List (String × Tag)

/-- The handles that have a meaning in every document. -/
def standardHandles : Handles := [("!", Tag.ofString "!"), ("!!", Tag.standardPrefix)]

/-- A tag in full; its handle must have a meaning. -/
def fullTag (handles : Handles) (handle : String) (suffix : Tag) : Option Tag :=
  if handle = "" then some suffix else (handles.lookup handle).map (· ++ suffix)

end TerseSchema.Yaml
