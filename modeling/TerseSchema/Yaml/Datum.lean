import TerseSchema.Number.Shortest
import TerseSchema.Value
import TerseSchema.Yaml.Content
import TerseSchema.Yaml.Scalar

/-!
# YAML data

## Main definitions

* `Yaml.Datum` — what YAML content stands for.
* `Yaml.Datum.same` — equality of keys.
* `Yaml.Content.datum?` — the datum of some content; none if a mapping has the same
  key twice, or a text is not what its tag says.
* `Yaml.Unrepresentable` — why a datum has no document value.
* `Yaml.Number.toValue` — the document value of a number.
* `Yaml.Datum.toValue` — the document value of a datum.
-/

namespace TerseSchema.Yaml

/-- What YAML content stands for. -/
inductive Datum where
  /-- The absent datum. -/
  | null
  | bool (value : Bool)
  | num (value : Number)
  | str (value : String)
  | seq (items : List Datum)
  /-- A mapping of keys to values, in the order of the text. -/
  | map (entries : List (Datum × Datum))
  /-- A datum with a tag of its own. -/
  | tagged (tag : String) (content : Datum)
  deriving Inhabited

/-! ### Equality of keys -/

/-- Equality of numbers: the two zeros are equal floats, and the float that is no
number equals itself. -/
def Number.same : Number → Number → Bool
  | .int a, .int b => a = b
  | .float a, .float b => a.same b
  | .infinite a, .infinite b => a = b
  | .nan, .nan => true
  | _, _ => false

namespace Datum

mutual

/-- Identity of data is decidable. -/
def decEq : (a b : Datum) → Decidable (a = b)
  | .null, .null => isTrue rfl
  | .bool a, .bool b => decidable_of_iff (a = b) (by simp)
  | .num a, .num b => decidable_of_iff (a = b) (by simp)
  | .str a, .str b => decidable_of_iff (a = b) (by simp)
  | .seq as, .seq bs =>
    match decEqItems as bs with
    | isTrue h => isTrue (congrArg Datum.seq h)
    | isFalse h => isFalse fun e => h (Datum.seq.inj e)
  | .map as, .map bs =>
    match decEqEntries as bs with
    | isTrue h => isTrue (congrArg Datum.map h)
    | isFalse h => isFalse fun e => h (Datum.map.inj e)
  | .tagged s a, .tagged t b =>
    match String.decEq s t, decEq a b with
    | isTrue hs, isTrue h => isTrue (by rw [hs, h])
    | isFalse h, _ => isFalse (by simp [h])
    | _, isFalse h => isFalse (by simp [h])
  | .null, .bool _ | .null, .num _ | .null, .str _ | .null, .seq _ | .null, .map _
  | .null, .tagged _ _ | .bool _, .null | .bool _, .num _ | .bool _, .str _ | .bool _, .seq _
  | .bool _, .map _ | .bool _, .tagged _ _ | .num _, .null | .num _, .bool _ | .num _, .str _
  | .num _, .seq _ | .num _, .map _ | .num _, .tagged _ _ | .str _, .null | .str _, .bool _
  | .str _, .num _ | .str _, .seq _ | .str _, .map _ | .str _, .tagged _ _ | .seq _, .null
  | .seq _, .bool _ | .seq _, .num _ | .seq _, .str _ | .seq _, .map _ | .seq _, .tagged _ _
  | .map _, .null | .map _, .bool _ | .map _, .num _ | .map _, .str _ | .map _, .seq _
  | .map _, .tagged _ _ | .tagged _ _, .null | .tagged _ _, .bool _ | .tagged _ _, .num _
  | .tagged _ _, .str _ | .tagged _ _, .seq _ | .tagged _ _, .map _ =>
    isFalse (by simp)

/-- Identity of lists of items is decidable. -/
def decEqItems : (as bs : List Datum) → Decidable (as = bs)
  | [], [] => isTrue rfl
  | a :: as, b :: bs =>
    match decEq a b, decEqItems as bs with
    | isTrue h, isTrue h' => isTrue (by rw [h, h'])
    | isFalse h, _ => isFalse (by simp [h])
    | _, isFalse h => isFalse (by simp [h])
  | [], _ :: _ | _ :: _, [] => isFalse (by simp)

/-- Identity of lists of entries is decidable. -/
def decEqEntries : (as bs : List (Datum × Datum)) → Decidable (as = bs)
  | [], [] => isTrue rfl
  | (k, a) :: as, (l, b) :: bs =>
    match decEq k l, decEq a b, decEqEntries as bs with
    | isTrue hk, isTrue h, isTrue h' => isTrue (by rw [hk, h, h'])
    | isFalse h, _, _ => isFalse (by simp [h])
    | _, isFalse h, _ => isFalse (by simp [h])
    | _, _, isFalse h => isFalse (by simp [h])
  | [], _ :: _ | _ :: _, [] => isFalse (by simp)

end

instance : DecidableEq Datum := decEq

mutual

/-- Equality of keys; the order of entries does not count. -/
def same : Datum → Datum → Bool
  | .null, .null => true
  | .bool a, .bool b => a = b
  | .num a, .num b => a.same b
  | .str a, .str b => a = b
  | .seq as, .seq bs => sameItems as bs
  | .map as, .map bs => as.length = bs.length && sameEntries as bs
  | .tagged s a, .tagged t b => s = t && a.same b
  | _, _ => false

/-- Items are compared place by place. -/
def sameItems : List Datum → List Datum → Bool
  | [], [] => true
  | a :: as, b :: bs => a.same b && sameItems as bs
  | _, _ => false

/-- Every entry of the first mapping is found in the second. -/
def sameEntries : List (Datum × Datum) → List (Datum × Datum) → Bool
  | [], _ => true
  | (k, a) :: as, bs => bs.any (fun (l, b) => k.same l && a.same b) && sameEntries as bs

end

/-- Whether all keys are different. -/
def distinctKeys : List (Datum × Datum) → Bool
  | [] => true
  | (k, _) :: entries => !entries.any (fun (l, _) => k.same l) && distinctKeys entries

end Datum

/-! ### The datum of some content -/

/-- What a plain text stands for, as a datum. -/
def Scalar.datum : Scalar → Datum
  | .null => .null
  | .bool b => .bool b
  | .num n => .num n
  | .str s => .str s

/-- What a text stands for whose tag says nothing about it. -/
def untagged? (style : Style) (text : String) : Option Datum :=
  if style = .plain then (Scalar.ofPlain? text).map Scalar.datum else some (.str text)

/-- What a text with a tag stands for.  The tags of the standard types must fit the
text, and all other standard tags leave it a text. -/
def tagged? (tag : Tag) (style : Style) (text : String) : Option Datum :=
  if tag.isOwn then
    (untagged? style text).map fun d => (tag.own?.map (Datum.tagged · d)).getD d
  else if tag = .standard "null" then if isNull text then some .null else none
  else if tag = .standard "bool" then (bool? text).map .bool
  else if tag = .standard "int" then
    ((integer? text.toList).bind (Scalar.ofInteger? · none)).map Scalar.datum
  else if tag = .standard "float" then (float? text).map .num
  else some (.str text)

/-- What a text stands for. -/
def textDatum? (tag : Option Tag) (style : Style) (text : String) : Option Datum :=
  match tag with
  | none => untagged? style text
  | some tag => tagged? tag style text

/-- A collection with its tag; a standard tag says nothing about one. -/
def withTag (tag : Option Tag) (d : Datum) : Datum :=
  match tag.bind Tag.own? with
  | some name => .tagged name d
  | none => d

namespace Content

mutual

/-- The datum of some content. -/
def datum? : Content → Option Datum
  | .text tag style s => textDatum? tag style s
  | .sequence tag items => (datumItems? items).map fun ds => withTag tag (.seq ds)
  | .mapping tag entries =>
    (datumEntries? entries).bind fun es =>
      if Datum.distinctKeys es then some (withTag tag (.map es)) else none

/-- The data of items. -/
def datumItems? : List Content → Option (List Datum)
  | [] => some []
  | c :: items => (datum? c).bind fun d => (datumItems? items).map (d :: ·)

/-- The data of entries. -/
def datumEntries? : List (Content × Content) → Option (List (Datum × Datum))
  | [] => some []
  | (k, v) :: entries =>
    (datum? k).bind fun k => (datum? v).bind fun v =>
      (datumEntries? entries).map ((k, v) :: ·)

end

end Content

/-! ### Document values -/

/-- Why a datum has no document value. -/
inductive Unrepresentable where
  /-- A number is neither an integer of 64 bits nor a float. -/
  | unsupported (value : Number)
  /-- A float is not finite. -/
  | notFinite (value : Number)
  /-- A key is neither a text nor a number nor a truth value. -/
  | badKey (key : Datum)
  deriving DecidableEq

/-- The text of a number. -/
def Number.text : Number → String
  | .int z => toString z
  | .float x => x.text ""
  | .infinite false => "inf"
  | .infinite true => "-inf"
  | .nan => "NaN"

/-- The text of a number as a key, where it is written as YAML writes it. -/
def Number.keyText : Number → String
  | .infinite false => ".inf"
  | .infinite true => "-.inf"
  | .nan => ".nan"
  | n => n.text

/-- The text of a fault.  The key at fault is not written out. -/
def Unrepresentable.message : Unrepresentable → String
  | .unsupported value => "unsupported YAML number: Number(" ++ value.keyText ++ ")"
  | .notFinite value => "cannot represent float " ++ value.text ++ " in JSON"
  | .badKey _ => "unsupported YAML map key"

namespace Number

/-- A number as a signed integer of 64 bits. -/
def signed? : Number → Option Int
  | .int z => if -(pow2 63 : Int) ≤ z ∧ z < pow2 63 then some z else none
  | _ => none

/-- A number as an unsigned integer of 64 bits. -/
def unsigned? : Number → Option Int
  | .int z => if 0 ≤ z ∧ z < pow2 64 then some z else none
  | _ => none

/-- The document value of a number. -/
def toValue (n : Number) : Except Unrepresentable Value :=
  match n.signed? with
  | some z => .ok (.int z)
  | none =>
    match n.unsigned? with
    | some z => .ok (.int z)
    | none =>
      match n with
      | .float x => .ok (.float x)
      | .infinite _ | .nan => .error (.notFinite n)
      | .int _ => .error (.unsupported n)

end Number

namespace Datum

/-- The text of a key. -/
def keyText? : Datum → Option String
  | .str s => some s
  | .num n => some n.keyText
  | .bool b => some (toString b)
  | _ => none

mutual

/-- The document value of a datum, without its tags.  Of two keys with one text the
first gives the place and the last the value. -/
def toValue : Datum → Except Unrepresentable Value
  | .null => .ok .null
  | .bool b => .ok (.bool b)
  | .num n => n.toValue
  | .str s => .ok (.str s)
  | .seq items => (toItems items).map .arr
  | .map entries => (toFields entries).map fun fields => .obj (Table.ofEntries fields)
  | .tagged _ content => content.toValue

/-- The document values of items. -/
def toItems : List Datum → Except Unrepresentable (List Value)
  | [] => .ok []
  | d :: items => d.toValue.bind fun v => (toItems items).map (v :: ·)

/-- The fields of entries; the key is looked at before the value. -/
def toFields : List (Datum × Datum) → Except Unrepresentable (List (String × Value))
  | [] => .ok []
  | (k, v) :: entries =>
    match k.keyText? with
    | none => .error (.badKey k)
    | some key => v.toValue.bind fun v => (toFields entries).map ((key, v) :: ·)

end

end Datum

end TerseSchema.Yaml
