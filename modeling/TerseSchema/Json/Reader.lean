import TerseSchema.Json.Token

/-!
# Reading JSON texts

The tokens of a JSON text are put together on a stack of the arrays and objects
that are still open.

## Main definitions

* `Json.Frame`, `Json.Assembly` — an open array or object, and what has been put
  together of a text.
* `Json.Assembly.step` — takes one token; none where it may not stand.
* `Json.read` — the value of a text.
-/

namespace TerseSchema.Json

/-- An array or an object that is still open. -/
inductive Frame where
  /-- An array, its last item first. -/
  | items (done : List Value)
  /-- An object: its fields so far, and the key of the field being read. -/
  | fields (done : List (String × Value)) (key : String)

/-- What may come next. -/
inductive Awaited where
  | value
  /-- A value, or the end of an array that has no items. -/
  | firstItem
  | key
  /-- A key, or the end of an object that has no fields. -/
  | firstKey
  /-- The colon behind a key. -/
  | colon
  /-- What comes behind a value: a comma, the end of an array or object, or the end
  of the text. -/
  | separator
  deriving DecidableEq

/-- What has been put together of a text. -/
structure Assembly where
  /-- The arrays and objects that are open, the innermost first. -/
  frames : List Frame := []
  /-- What may come next. -/
  awaited : Awaited := .value
  /-- The value of the text, once it is complete. -/
  result : Option Value := none

/-- The most arrays and objects that may be open at once. -/
def maxNesting : Nat := 127

namespace Assembly

/-- Puts a complete value where it belongs. -/
def complete (v : Value) : List Frame → Assembly
  | [] => ⟨[], .separator, some v⟩
  | .items done :: outer => ⟨.items (v :: done) :: outer, .separator, none⟩
  | .fields done key :: outer => ⟨.fields (Table.insert done key v) key :: outer, .separator, none⟩

/-- Opens an array or object. -/
def enter (a : Assembly) (frame : Frame) (awaited : Awaited) : Option Assembly :=
  if a.frames.length < maxNesting then some ⟨frame :: a.frames, awaited, none⟩ else none

/-- Whether a value may come next. -/
def takesValue (a : Assembly) : Bool := a.awaited = .value || a.awaited = .firstItem

/-- Takes one token; none where it may not stand.  A key that is already there
keeps its place, and the last value of a key is the one kept. -/
def step (a : Assembly) (t : Token) : Option Assembly :=
  match t, a.frames with
  | .word v, frames => if a.takesValue then some (complete v frames) else none
  | .text s, .fields done _ :: outer =>
    if a.awaited = .key ∨ a.awaited = .firstKey then some ⟨.fields done s :: outer, .colon, none⟩
    else if a.takesValue then some (complete (.str s) a.frames)
    else none
  | .text s, frames => if a.takesValue then some (complete (.str s) frames) else none
  | .sign .openArray, _ => if a.takesValue then a.enter (.items []) .firstItem else none
  | .sign .openObject, _ => if a.takesValue then a.enter (.fields [] "") .firstKey else none
  | .sign .colon, frames => if a.awaited = .colon then some ⟨frames, .value, none⟩ else none
  | .sign .comma, .items done :: outer =>
    if a.awaited = .separator then some ⟨.items done :: outer, .value, none⟩ else none
  | .sign .comma, .fields done key :: outer =>
    if a.awaited = .separator then some ⟨.fields done key :: outer, .key, none⟩ else none
  | .sign .closeArray, .items done :: outer =>
    if a.awaited = .separator ∨ a.awaited = .firstItem then
      some (complete (.arr done.reverse) outer)
    else none
  | .sign .closeObject, .fields done _ :: outer =>
    if a.awaited = .separator ∨ a.awaited = .firstKey then some (complete (.obj done) outer)
    else none
  | .sign _, _ => none

end Assembly

/-- The value of a JSON text; none if the text is none. -/
def read (text : String) : Option Value :=
  (tokens? text.toList).bind fun tokens => (tokens.foldlM Assembly.step {}).bind (·.result)

end TerseSchema.Json
