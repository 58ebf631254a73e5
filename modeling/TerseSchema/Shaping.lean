import TerseSchema.Schema.Walk
import TerseSchema.Types.Registry
import TerseSchema.Validation

/-!
# Shaping

Shaping builds a value in which every declared part of a schema is present and
well typed: a scalar that its type accepts is kept, any other is replaced by the
declared default, cast to the type, or by a sample of the type.

## Main definitions

* `undefinedText` — what stands for a scalar without type, value and default.
* `fallback` — the value that replaces a scalar its type does not accept.
* `shaping` — the walk; its results carry the calls of custom checks.
* `shape` — the shaped value under a compiled schema.

Where a sample is drawn at random, `draws` gives the draw made at each path.
-/

namespace TerseSchema

/-- What stands for a scalar that has no known type, no value and no default. -/
def undefinedText : String := "Not defined!"

/-- The value of a scalar that its type does not accept: the declared default, or
a sample. -/
def fallback (type : TypeDef) (declared : Option Default) (draw : Nat) : Value :=
  match declared with
  | some d => type.cast d.text
  | none => type.sample draw

/-- The shaped scalar of a known type. -/
def shapeKnown (type : TypeDef) (name : String) (declared : Option Default) (draw : Nat)
    (value : Option Value) (ctx : Context) : Traced Value :=
  match value with
  | none => ⟨fallback type declared draw, []⟩
  | some v =>
    ⟨if type.check v ctx then v else fallback type declared draw, type.calls name v ctx⟩

/-- The shaped scalar of a type without a meaning: any value is kept. -/
def shapeUnknown (declared : Option Default) (value : Option Value) : Value :=
  value.getD (.str ((declared.map Default.text).getD undefinedText))

/-- An array of shaped items. -/
def Traced.array (items : List (Traced Value)) : Traced Value :=
  ⟨.arr (items.map (·.answer)), items.flatMap (·.calls)⟩

/-- An object of shaped fields. -/
def Traced.object (fields : List (String × Traced Value)) : Traced Value :=
  ⟨.obj (Table.ofEntries (fields.map fun (name, t) => (name, t.answer))),
    fields.flatMap fun (_, t) => t.calls⟩

/-- Whether an optional schema builds nothing at a place: nothing is there, and
absent parts are not included. -/
def leavesOut (includeOptional optional : Bool) (place : Place) : Bool :=
  place.present.isNone && optional && !includeOptional

/-- Builds the value a schema calls for, out of what is in `root`.  An array is
filled up to the length of its pattern.  An object has its declared fields, and
under a wildcard its other keys; with neither it is kept as it is.  A value of
another kind counts as an empty array or object. -/
def shaping (registry : Registry) (root : Value) (includeOptional : Bool) (draws : Path → Nat) :
    Walk Place (Traced Value) where
  scalar optional type declared place :=
    if leavesOut includeOptional optional place then ⟨.null, []⟩ else
      match registry.get? type with
      | none => ⟨shapeUnknown declared place.present, []⟩
      | some known =>
        shapeKnown known type declared (draws place.path) place.present
          ⟨place.path, root, place.parent⟩
  array optional parts place :=
    if leavesOut includeOptional optional place then ⟨.null, []⟩ else
      let items := (place.present.bind Value.items?).getD []
      Traced.array <| (List.range (max items.length parts.length)).filterMap fun i =>
        (nth parts i).map (· (place.item i items[i]?))
  object optional fields wildcard place :=
    if leavesOut includeOptional optional place then ⟨.null, []⟩ else
      let entries := (place.present.bind Value.fields?).getD []
      if fields.isEmpty && wildcard.isNone then ⟨.obj entries, []⟩
      else
        let known := fields.map fun (name, build) =>
          (name, build (place.field name (entries.lookup name)))
        let others := match wildcard with
          | none => []
          | some build =>
            (undeclared fields entries).map fun (key, v) =>
              (key, build (place.field key (some v)))
        Traced.object (known ++ others)

/-- The shaped value under a compiled schema; `null` counts as nothing. -/
def shape (value : Value) (schema : Arena) (registry : Registry) (includeOptional : Bool)
    (draws : Path → Nat) : Traced Value :=
  (shaping registry value includeOptional draws).run schema.tree
    ⟨some value, ⟨Path.defaultRoot, []⟩, none⟩

end TerseSchema
