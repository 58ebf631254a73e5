import TerseSchema.Schema.Walk
import TerseSchema.Types.Registry

/-!
# Validation

Validation checks a value against a schema and collects every violation in one
pass: all items and fields are visited, whatever failed before.  A type name
without a meaning is a fault of the schema and not of the value; it is reported
before any part of the value is looked at.

## Main definitions

* `Violation`, `Record`, `summary` — what may be wrong at a path, and the text of
  a list of records.
* `Finding` — what a walk meets: a call of a custom check, a violation, or a
  fault of the schema.
* `validation` — the walk.
* `Traced` — an answer together with the calls of custom checks it took.
* `validate` — the records of a value under a compiled schema.
-/

namespace TerseSchema

/-- What may be wrong at a path. -/
inductive Violation where
  /-- Nothing is there, and something has to be. -/
  | required
  /-- The type rejects the value. -/
  | validationFailed
  /-- Something other than an array is there, or nothing. -/
  | shouldBeArray
  /-- Something other than an object is there, or nothing. -/
  | shouldBeObject
  deriving DecidableEq

/-- The text of a violation. -/
def Violation.message : Violation → String
  | .required => "is required"
  | .validationFailed => "validation failed"
  | .shouldBeArray => "should be array"
  | .shouldBeObject => "should be object"

/-- A violation at a path. -/
structure Record where
  path : Path
  violation : Violation
  deriving DecidableEq

/-- The text of a record. -/
def Record.text (r : Record) : String := r.path.text ++ ": " ++ r.violation.message

/-- The text of all records of a value: one stands for itself, several are counted
and listed. -/
def summary : List Record → String
  | [record] => record.text
  | records =>
    s!"Validation failed: {records.length} errors found (" ++
      ", ".intercalate (records.map Record.text) ++ ")"

/-- What a walk meets. -/
inductive Finding where
  /-- A custom check is called. -/
  | called (call : Call)
  /-- The value violates the schema. -/
  | violated (record : Record)
  /-- The schema is at fault. -/
  | faulted (error : SchemaError)
  deriving DecidableEq

namespace Finding

/-- The call of a finding. -/
def call? : Finding → Option Call
  | .called call => some call
  | _ => none

/-- The record of a finding. -/
def record? : Finding → Option Record
  | .violated record => some record
  | _ => none

/-- The fault of a finding. -/
def error? : Finding → Option SchemaError
  | .faulted error => some error
  | _ => none

end Finding

/-! ### The walk -/

/-- What is found where nothing is: a violation, unless the schema is optional. -/
def missing (optional : Bool) (place : Place) (violation : Violation) : List Finding :=
  if optional then [] else [.violated ⟨place.path, violation⟩]

/-- What is found where a scalar meets a value. -/
def checked (registry : Registry) (type : String) (v : Value) (ctx : Context) : List Finding :=
  (registry.calls type v ctx).map .called ++
    match registry.check type v ctx with
    | .ok true => []
    | .ok false => [.violated ⟨ctx.path, .validationFailed⟩]
    | .error e => [.faulted e]

/-- The fields of an object that are not declared. -/
def undeclared {α : Type} (declared : List (String × α)) (fields : List (String × Value)) :
    List (String × Value) :=
  fields.filter fun (key, _) => key ∉ Table.names declared

/-- Collects what a schema finds in a value that belongs to `root`.  Items meet the
parts of an array in turn; the fields of an object are visited in the order of
their declaration, then the other keys in the order of the value. -/
def validation (registry : Registry) (root : Value) : Walk Place (List Finding) where
  scalar optional type _ place :=
    match place.present with
    | none => missing optional place .required
    | some v => checked registry type v ⟨place.path, root, place.parent⟩
  array optional parts place :=
    match place.present with
    | none => missing optional place .shouldBeArray
    | some (.arr items) =>
      items.zipIdx.flatMap fun (item, i) =>
        ((nth parts i).map (· (place.item i (some item)))).getD []
    | some _ => [.violated ⟨place.path, .shouldBeArray⟩]
  object optional fields wildcard place :=
    match place.present with
    | none => missing optional place .shouldBeObject
    | some (.obj entries) =>
      (fields.flatMap fun (name, find) => find (place.field name (entries.lookup name))) ++
        match wildcard with
        | none => []
        | some find =>
          (undeclared fields entries).flatMap fun (key, v) => find (place.field key (some v))
    | some _ => [.violated ⟨place.path, .shouldBeObject⟩]

/-! ### The answer -/

/-- An answer, and the calls of custom checks it took, in order. -/
structure Traced (α : Type) where
  answer : α
  calls : List Call

/-- The records of a value under a compiled schema, in the order of the walk;
`pathRoot` names the value in their paths. -/
def validate (value : Value) (schema : Arena) (registry : Registry) (pathRoot : String) :
    Traced (Except SchemaError (List Record)) :=
  match registry.ensureKnown schema.types with
  | .error e => ⟨.error e, []⟩
  | .ok () =>
    let found := (validation registry value).run schema.tree ⟨some value, ⟨pathRoot, []⟩, none⟩
    let answer := match found.findSome? Finding.error? with
      | some e => .error e
      | none => .ok (found.filterMap Finding.record?)
    ⟨answer, found.filterMap Finding.call?⟩

end TerseSchema
