import TerseSchema.Number.Double
import TerseSchema.Table

/-!
# Document values

The values that documents hold, schemas describe and types check.  Integers and
floating-point numbers are kept apart, whatever their size, and an object keeps
its fields in the order in which they arrived.

## Main definitions

* `Number`, `Value` — numbers and values.  `=` on them is identity.
* `Value.same` — equality of documents: the order of an object's fields and the
  sign of zero do not count, and an integer never equals a float.
* `Value.get?` — the field of an object.
* `Value.induct` — induction with a hypothesis for every item and every field.
-/

namespace TerseSchema

/-- A number of a document: an integer, or a finite binary64 number. -/
inductive Number where
  /-- A number without fraction or exponent. -/
  | int (value : Int)
  /-- Any other number. -/
  | float (value : Double)
  deriving DecidableEq

namespace Number

/-- Numeric equality within one kind; an integer never equals a float. -/
def same : Number → Number → Bool
  | .int a, .int b => a = b
  | .float a, .float b => a.same b
  | _, _ => false

/-- Whether a number has no fractional part, however it is kept. -/
def isWhole : Number → Bool
  | .int _ => true
  | .float x => x.isWhole

end Number

/-- A document value. -/
inductive Value where
  /-- The absent value. -/
  | null
  | bool (value : Bool)
  | num (value : Number)
  | str (value : String)
  /-- An array of items. -/
  | arr (items : List Value)
  /-- An object: its fields in the order of arrival. -/
  | obj (fields : List (String × Value))
  deriving Inhabited

namespace Value

/-- The integer `z`. -/
abbrev int (z : Int) : Value := .num (.int z)

/-- The floating-point number `x`. -/
abbrev float (x : Double) : Value := .num (.float x)

/-- Whether a value is the absent one. -/
def isNull : Value → Bool
  | .null => true
  | _ => false

/-- Whether a value is a text. -/
def isText : Value → Bool
  | .str _ => true
  | _ => false

/-- The items of an array. -/
def items? : Value → Option (List Value)
  | .arr items => some items
  | _ => none

/-- The fields of an object. -/
def fields? : Value → Option (List (String × Value))
  | .obj fields => some fields
  | _ => none

/-- The field `key` of an object. -/
def get? (v : Value) (key : String) : Option Value := v.fields?.bind (·.lookup key)

/-! ### Induction -/

/-- Induction over values: an array may assume the statement of its items, an
object of the values of its fields. -/
theorem induct {motive : Value → Prop}
    (null : motive .null) (bool : ∀ b, motive (.bool b)) (num : ∀ n, motive (.num n))
    (str : ∀ s, motive (.str s))
    (arr : ∀ items, (∀ v ∈ items, motive v) → motive (.arr items))
    (obj : ∀ fields, (∀ f ∈ fields, motive f.2) → motive (.obj fields)) :
    ∀ v, motive v :=
  @Value.rec motive (fun items => ∀ v ∈ items, motive v)
    (fun fields => ∀ f ∈ fields, motive f.2) (fun f => motive f.2)
    null bool num str arr obj
    (by simp) (fun _ _ hv hvs => List.forall_mem_cons.mpr ⟨hv, hvs⟩)
    (by simp) (fun _ _ hf hfs => List.forall_mem_cons.mpr ⟨hf, hfs⟩)
    (fun _ _ hv => hv)

/-! ### Equality -/

mutual

/-- Equality of documents: field order and the sign of zero do not count. -/
def same : Value → Value → Bool
  | .null, .null => true
  | .bool a, .bool b => a = b
  | .num a, .num b => a.same b
  | .str a, .str b => a = b
  | .arr as, .arr bs => sameItems as bs
  | .obj as, .obj bs => as.length = bs.length && sameFields as bs
  | _, _ => false

/-- Items are compared place by place. -/
def sameItems : List Value → List Value → Bool
  | [], [] => true
  | a :: as, b :: bs => a.same b && sameItems as bs
  | _, _ => false

/-- Every field of the first object is found, with the same value, in the second. -/
def sameFields : List (String × Value) → List (String × Value) → Bool
  | [], _ => true
  | (key, a) :: as, bs =>
    (match bs.lookup key with
      | some b => a.same b
      | none => false) && sameFields as bs

end

mutual

/-- Identity of values is decidable. -/
def decEq : (a b : Value) → Decidable (a = b)
  | .null, .null => isTrue rfl
  | .bool a, .bool b => decidable_of_iff (a = b) (by simp)
  | .num a, .num b => decidable_of_iff (a = b) (by simp)
  | .str a, .str b => decidable_of_iff (a = b) (by simp)
  | .arr as, .arr bs =>
    match decEqItems as bs with
    | isTrue h => isTrue (congrArg Value.arr h)
    | isFalse h => isFalse fun e => h (Value.arr.inj e)
  | .obj as, .obj bs =>
    match decEqFields as bs with
    | isTrue h => isTrue (congrArg Value.obj h)
    | isFalse h => isFalse fun e => h (Value.obj.inj e)
  | .null, .bool _ | .null, .num _ | .null, .str _ | .null, .arr _ | .null, .obj _
  | .bool _, .null | .bool _, .num _ | .bool _, .str _ | .bool _, .arr _ | .bool _, .obj _
  | .num _, .null | .num _, .bool _ | .num _, .str _ | .num _, .arr _ | .num _, .obj _
  | .str _, .null | .str _, .bool _ | .str _, .num _ | .str _, .arr _ | .str _, .obj _
  | .arr _, .null | .arr _, .bool _ | .arr _, .num _ | .arr _, .str _ | .arr _, .obj _
  | .obj _, .null | .obj _, .bool _ | .obj _, .num _ | .obj _, .str _ | .obj _, .arr _ =>
    isFalse (by simp)

/-- Identity of lists of items is decidable. -/
def decEqItems : (as bs : List Value) → Decidable (as = bs)
  | [], [] => isTrue rfl
  | a :: as, b :: bs =>
    match decEq a b, decEqItems as bs with
    | isTrue h, isTrue h' => isTrue (by rw [h, h'])
    | isFalse h, _ => isFalse (by simp [h])
    | _, isFalse h => isFalse (by simp [h])
  | [], _ :: _ | _ :: _, [] => isFalse (by simp)

/-- Identity of lists of fields is decidable. -/
def decEqFields : (as bs : List (String × Value)) → Decidable (as = bs)
  | [], [] => isTrue rfl
  | (k, a) :: as, (l, b) :: bs =>
    match String.decEq k l, decEq a b, decEqFields as bs with
    | isTrue hk, isTrue h, isTrue h' => isTrue (by rw [hk, h, h'])
    | isFalse h, _, _ => isFalse (by simp [h])
    | _, isFalse h, _ => isFalse (by simp [h])
    | _, _, isFalse h => isFalse (by simp [h])
  | [], _ :: _ | _ :: _, [] => isFalse (by simp)

end

instance : DecidableEq Value := decEq

end Value

end TerseSchema
