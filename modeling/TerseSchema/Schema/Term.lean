import TerseSchema.Schema.Flat
import TerseSchema.Table

/-!
# Terms and groups of a flat schema

A term is an optional mark and either a reference to a group or a scalar
`type[:default]`.  A group is a list of terms, or a list of entries of a name and
a term.

## Main definitions

* `Default`, `Term`, `Group` — the parts of a flat schema.
* `Term.parse`, `Group.parse` — reading them from their texts.
* `FlatSchema.root`, `FlatSchema.group` — the terms of a flat schema.
* `declaredFields`, `wildcard?` — what the entries of an object say: each name once, at
  its first place and with its last meaning, and the last `*`.
-/

namespace TerseSchema

/-- A declared default, before it is cast to the scalar's type. -/
inductive Default where
  | literal (text : String)
  /-- Text as it stands in the schema. -/
  | bare (text : String)
  deriving DecidableEq

/-- The text of a default. -/
def Default.text : Default → String
  | .literal text => text
  | .bare text => text

/-- What a term says of a place. -/
inductive Content where
  /-- The group recorded under this number. -/
  | reference (index : Nat)
  /-- A type name, empty for any value, and a default. -/
  | scalar (type : String) (declared : Option Default)
  deriving DecidableEq

/-- A term of a schema. -/
structure Term where
  /-- Whether it is led by `?`. -/
  optional : Bool
  content : Content
  deriving DecidableEq

namespace Term

/-- The default a text after the first colon declares: none if it is empty, a
literal if it is a placeholder of the table. -/
def parseDefault (literals : List (List Char)) (text : List Char) : Option Default :=
  match text with
  | [] => none
  | '$' :: digits =>
    match (Reference.parse? digits).bind (literals[·]?) with
    | some literal => some (.literal (String.ofList literal))
    | none => some (.bare (String.ofList text))
  | text => some (.bare (String.ofList text))

/-- What a term without its optional mark says.  Text behind a second colon has
no meaning. -/
def parseContent (literals : List (List Char)) (text : List Char) : Content :=
  match Reference.parse? text with
  | some index => .reference index
  | none =>
    let (type, rest) := text.span (· ≠ ':')
    .scalar (String.ofList type) (parseDefault literals ((rest.drop 1).takeWhile (· ≠ ':')))

/-- Reads a term. -/
def parse (literals : List (List Char)) (text : List Char) : Term :=
  match text with
  | '?' :: rest => ⟨true, parseContent literals rest⟩
  | text => ⟨false, parseContent literals text⟩

end Term

/-- A group of a flat schema. -/
inductive Group where
  /-- The parts of an array. -/
  | array (parts : List Term)
  /-- The entries of an object, as written. -/
  | object (entries : List (String × Term))
  deriving DecidableEq

namespace Group

/-- The text between the brackets of a group.  A body that does not begin and end
with a character of one byte each has nothing in between. -/
def inner (body : List Char) : List Char :=
  match body with
  | first :: rest =>
    match rest.getLast? with
    | some last => if first.utf8Size = 1 ∧ last.utf8Size = 1 then rest.dropLast else []
    | none => []
  | [] => []

/-- One entry of an object: the name ends at the first colon. -/
def parseEntry (literals : List (List Char)) (text : List Char) : String × Term :=
  let (name, rest) := text.span (· ≠ ':')
  (String.ofList name, Term.parse literals (rest.drop 1))

/-- Reads a group.  A body that is no array is an object.  An array has at least
one part, empty entries of an object are skipped. -/
def parse (literals : List (List Char)) (body : List Char) : Group :=
  let pieces := (inner body).splitOn ','
  if body.head? = some '[' then .array (pieces.map (Term.parse literals))
  else .object ((pieces.filter (· ≠ [])).map (parseEntry literals))

/-- The terms of a group, as written. -/
def terms : Group → List Term
  | .array parts => parts
  | .object entries => entries.map Prod.snd

end Group

namespace FlatSchema

/-- The root term. -/
def root (s : FlatSchema) : Term := Term.parse s.literals s.flat

/-- The group recorded under a number. -/
def group (s : FlatSchema) (index : Nat) : Group :=
  Group.parse s.literals (s.lookups.getD index [])

end FlatSchema

/-! ### The entries of an object -/

variable {α : Type}

/-- The name of the entry that covers every undeclared key. -/
def wildcardName : String := "*"

/-- The declared fields: each name at its first place, with its last meaning. -/
def declaredFields (entries : List (String × α)) : List (String × α) :=
  Table.ofEntries (entries.filter (·.1 ≠ wildcardName))

/-- The last entry that covers undeclared keys. -/
def wildcard? (entries : List (String × α)) : Option α :=
  (entries.filter (·.1 = wildcardName)).getLast?.map Prod.snd

end TerseSchema
