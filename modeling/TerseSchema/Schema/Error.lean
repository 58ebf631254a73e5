/-!
# Errors of a schema text

A schema error says that the schema itself is broken.  It is raised before any
value is looked at, and it is never reported as a violation of a value.

## Main definitions

* `SchemaError` — the four causes.
* `SchemaError.message` — the text of an error.
-/

namespace TerseSchema

/-- Why a schema cannot be used. -/
inductive SchemaError where
  /-- A quote at this offset opens a literal that never closes. -/
  | missingClosingQuote (offset : Nat)
  /-- The bracket or brace at this offset has no partner. -/
  | unbalancedBrackets (offset : Nat)
  /-- A scalar names a type that is not known. -/
  | unknownType (name : String)
  /-- A reference to entry `index` stands where only the first `bound` entries
  may be referred to. -/
  | danglingReference (index bound : Nat)
  deriving DecidableEq

/-- The text of an error. -/
def SchemaError.message : SchemaError → String
  | .missingClosingQuote offset =>
    s!"Schema error: missing closing quote (opened at offset {offset})"
  | .unbalancedBrackets offset =>
    s!"Schema error: malformed schema: unbalanced brackets (at offset {offset})"
  | .unknownType name => s!"Schema error: validator '{name}' not found"
  | .danglingReference index bound =>
    s!"Schema error: lookup reference {index} out of range (table has {bound} entries)"

end TerseSchema
