import TerseSchema.Schema.Reference
import TerseSchema.Schema.Token

/-!
# Flat schemas

The flat form of a schema text has no nested groups: every group is moved into a
table and replaced by its number, every literal into another table and replaced
by `$` and its number.  A group is recorded when its closing bracket is reached,
so an entry refers only to entries recorded before it.

## Main definitions

* `FlatSchema` — a root term and the two tables.
* `Assembly.step` — takes one token into the flat form under construction.
* `flatten` — the flat form of a schema text.
* `FlatSchema.rootReference`, `FlatSchema.resolveLiteral` — the group the root
  refers to, and the literal a placeholder stands for.
-/

namespace TerseSchema

/-- A schema without nesting.  Its texts are lists of characters, since they are
taken apart again. -/
structure FlatSchema where
  /-- The root term. -/
  flat : List Char := []
  /-- The groups with their brackets, inner ones first. -/
  lookups : List (List Char) := []
  /-- The literals, in the order of the text. -/
  literals : List (List Char) := []
  deriving DecidableEq

/-- A group whose closing bracket has not been reached. -/
structure OpenGroup where
  kind : Bracket
  /-- The offset of its opening bracket. -/
  offset : Nat
  /-- Its text so far, the last character first. -/
  body : List Char

/-- A flat schema under construction. -/
structure Assembly where
  /-- The root term so far, the last character first. -/
  root : List Char := []
  /-- The open groups, the innermost first. -/
  groups : List OpenGroup := []
  lookups : List (List Char) := []
  literals : List (List Char) := []

namespace Assembly

/-- Adds a piece of text to the innermost open group, or to the root. -/
def emit (a : Assembly) (piece : List Char) : Assembly :=
  match a.groups with
  | [] => { a with root := piece.reverse ++ a.root }
  | group :: outer =>
    { a with groups := { group with body := piece.reverse ++ group.body } :: outer }

/-- Takes one token: a literal or a finished group is recorded and leaves its
number behind; a closing bracket must match the innermost open group. -/
def step (a : Assembly) : Token → Except SchemaError Assembly
  | .plain c => .ok (a.emit [c])
  | .literal text =>
    .ok ({ a with literals := a.literals ++ [text] }.emit
      ('$' :: Reference.digits a.literals.length))
  | .opening kind offset => .ok { a with groups := ⟨kind, offset, [kind.opener]⟩ :: a.groups }
  | .closing kind offset =>
    match a.groups with
    | [] => .error (.unbalancedBrackets offset)
    | group :: outer =>
      if group.kind = kind then
        .ok ({ a with
          groups := outer
          lookups := a.lookups ++ [(kind.closer :: group.body).reverse] }.emit
            (Reference.digits a.lookups.length))
      else .error (.unbalancedBrackets offset)

/-- Takes a list of tokens. -/
def run (a : Assembly) (tokens : List Token) : Except SchemaError Assembly := tokens.foldlM step a

@[simp] theorem run_nil (a : Assembly) : a.run [] = .ok a := rfl

@[simp] theorem run_cons (a : Assembly) (t : Token) (ts : List Token) :
    a.run (t :: ts) = (a.step t).bind (·.run ts) := rfl

/-- Assembling goes on where it stopped. -/
theorem run_append (a : Assembly) (ts us : List Token) :
    a.run (ts ++ us) = (a.run ts).bind (·.run us) := by
  simp only [run, List.foldlM_append]
  rfl

/-- The flat schema, if no group is left open; the outermost open one is at fault
otherwise. -/
def finish (a : Assembly) : Except SchemaError FlatSchema :=
  match a.groups.getLast? with
  | some group => .error (.unbalancedBrackets group.offset)
  | none => .ok ⟨a.root.reverse, a.lookups, a.literals⟩

end Assembly

/-- The flat form of a schema text.  All quotes are matched before any bracket is
looked at, so an unclosed literal is reported first. -/
def flatten (text : String) : Except SchemaError FlatSchema :=
  (tokenize text.toList).bind fun tokens => (({} : Assembly).run tokens).bind Assembly.finish

namespace FlatSchema

/-- The group the root refers to, if the root is a group. -/
def rootReference (s : FlatSchema) : Option Nat :=
  match s.flat with
  | '?' :: rest => Reference.parse? rest
  | flat => Reference.parse? flat

/-- The literal a placeholder stands for; any other text is returned unchanged. -/
def resolveLiteral (s : FlatSchema) (text : List Char) : List Char :=
  match text with
  | '$' :: digits => ((Reference.parse? digits).bind (s.literals[·]?)).getD text
  | _ => text

end FlatSchema

end TerseSchema
