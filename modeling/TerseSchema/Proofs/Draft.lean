import TerseSchema.Proofs.Table
import TerseSchema.Schema.Token
import TerseSchema.Schema.Tree

/-!
# Schemas as they are written

A draft is what an author has in mind when writing a schema text: terms, parts
and entries in the order in which they are written, a name possibly more than
once.  It is written down as a sequence of lexemes, and a text spells the lexemes
with any white space between them.

## Main definitions

* `Draft` — a schema as it is written; `Draft.WellFormed` says that its names and
  defaults can be told from the structure around them.
* `Draft.tree` — the schema a draft stands for: a repeated name keeps its first
  place and its last meaning.
* `Draft.lexemes`, `Spells`, `Draft.WrittenAs` — the texts that write a draft.

## Main results

* `declaredFields_eq_fieldsOf`, `wildcard?_eq_restOf` — what reading makes of repeated
  entries is what the draft says.
-/

namespace TerseSchema

/-- A schema as it is written.  The entries of an object stand under a name or,
where there is none, under `*`. -/
inductive Draft where
  /-- A scalar of a type, with a default. -/
  | scalar (optional : Bool) (type : String) (declared : Option Default)
  /-- An array and its parts. -/
  | array (optional : Bool) (parts : List Draft)
  /-- An object and its entries. -/
  | object (optional : Bool) (entries : List (Option String × Draft))

/-! ### What a draft stands for -/

section
variable {α : Type}

/-- The declared fields among entries: each name at the place of its first entry,
with its last meaning. -/
def fieldsOf (entries : List (Option String × α)) : List (String × α) :=
  (entries.filterMap Prod.fst).eraseDups.filterMap fun name =>
    (entries.reverse.lookup (some name)).map (name, ·)

/-- What entries say of every other key: the last one under `*`. -/
def restOf (entries : List (Option String × α)) : Option α := entries.reverse.lookup none

end

namespace Draft

mutual

/-- The schema a draft stands for. -/
def tree : Draft → Tree
  | .scalar optional type declared => .scalar optional type declared
  | .array optional parts => .array optional (partTrees parts)
  | .object optional entries =>
    .object optional (fieldsOf (entryTrees entries)) (restOf (entryTrees entries))

/-- The schemas of the parts of an array. -/
def partTrees : List Draft → List Tree
  | [] => []
  | d :: ds => d.tree :: partTrees ds

/-- The schemas of the entries of an object. -/
def entryTrees : List (Option String × Draft) → List (Option String × Tree)
  | [] => []
  | (name, d) :: es => (name, d.tree) :: entryTrees es

end

theorem partTrees_eq_map (ds : List Draft) : partTrees ds = ds.map tree := by
  induction ds with
  | nil => rfl
  | cons d ds ih => rw [partTrees, ih, List.map_cons]

theorem entryTrees_eq_map (es : List (Option String × Draft)) :
    entryTrees es = es.map (Prod.map id tree) := by
  induction es with
  | nil => rfl
  | cons e es ih => rw [entryTrees, ih, List.map_cons, Prod.map, id]

end Draft

/-! ### Repeated entries -/

section
variable {α : Type}

/-- The text an entry stands under. -/
def entryName (name : Option String) : String := name.getD wildcardName

/-- The entries under a name. -/
def namedEntries (entries : List (Option String × α)) : List (String × α) :=
  entries.filterMap fun e => e.1.map (·, e.2)

/-- An entry of a draft with the text it stands under. -/
def writtenEntry (e : Option String × α) : String × α := (entryName e.1, e.2)

theorem names_namedEntries (es : List (Option String × α)) :
    Table.names (namedEntries es) = es.filterMap Prod.fst := by
  rw [Table.names, namedEntries, List.map_filterMap]
  congr 1
  funext e
  cases e.1 <;> rfl

theorem lookup_namedEntries (es : List (Option String × α)) (name : String) :
    (namedEntries es).lookup name = es.lookup (some name) := by
  induction es with
  | nil => rfl
  | cons e es ih =>
    obtain ⟨key, a⟩ := e
    cases key with
    | none => exact ih
    | some other =>
      show ((other, a) :: namedEntries es).lookup name = _
      rw [List.lookup_cons, List.lookup_cons, ih]
      rfl

theorem filter_writtenEntry {es : List (Option String × α)}
    (h : ∀ e ∈ es, ∀ name ∈ e.1, name ≠ wildcardName) :
    (es.map writtenEntry).filter (·.1 ≠ wildcardName) = namedEntries es := by
  induction es with
  | nil => rfl
  | cons e es ih =>
    have ih' := ih fun e' he' => h e' (List.mem_cons_of_mem _ he')
    obtain ⟨key, a⟩ := e
    cases key with
    | none =>
      rw [List.map_cons, List.filter_cons_of_neg (by simp [writtenEntry, entryName]), ih']
      rfl
    | some name =>
      have hne : name ≠ wildcardName := h _ List.mem_cons_self name rfl
      rw [List.map_cons, List.filter_cons_of_pos (by simp [writtenEntry, entryName, hne]), ih']
      rfl

/-- **A repeated name keeps its first place and its last meaning.** -/
theorem declaredFields_eq_fieldsOf {es : List (Option String × α)}
    (h : ∀ e ∈ es, ∀ name ∈ e.1, name ≠ wildcardName) :
    declaredFields (es.map writtenEntry) = fieldsOf es := by
  rw [declaredFields, filter_writtenEntry h, fieldsOf,
    Table.eq_filterMap_lookup (Table.nodup_names_ofEntries (namedEntries es)),
    Table.names_ofEntries, names_namedEntries]
  congr 1
  funext name
  rw [Table.lookup_ofEntries, namedEntries, ← List.filterMap_reverse]
  exact congrArg _ (lookup_namedEntries es.reverse name)

/-- **A repeated `*` keeps its last meaning.** -/
theorem wildcard?_eq_restOf {es : List (Option String × α)}
    (h : ∀ e ∈ es, ∀ name ∈ e.1, name ≠ wildcardName) :
    wildcard? (es.map writtenEntry) = restOf es := by
  induction es using List.reverseRecOn with
  | nil => rfl
  | append_singleton es e ih =>
    have ih' := ih fun e' he' => h e' (List.mem_append_left _ he')
    obtain ⟨key, a⟩ := e
    rw [restOf, List.reverse_append, List.reverse_singleton, List.singleton_append,
      List.lookup_cons, wildcard?, List.map_append, List.filter_append, List.map_singleton]
    cases key with
    | none =>
      rw [List.filter_cons_of_pos (by simp [writtenEntry, entryName]), List.filter_nil,
        List.getLast?_concat]
      rfl
    | some name =>
      have hne : name ≠ wildcardName :=
        h _ (List.mem_append_right _ (List.mem_singleton_self _)) name rfl
      rw [List.filter_cons_of_neg (by simp [writtenEntry, entryName, hne]),
        List.filter_nil, List.append_nil]
      exact ih'

end

/-! ### Writing a draft down -/

/-- A piece of a written schema that white space does not split. -/
inductive Lexeme where
  /-- A character outside literals. -/
  | mark (c : Char)
  /-- A literal, without its quotes. -/
  | literal (text : List Char)
  deriving DecidableEq

/-- The characters of a text, outside literals. -/
def spelled (text : List Char) : List Lexeme := text.map .mark

/-- The mark of an optional term. -/
def optionalMark (optional : Bool) : List Char := if optional then ['?'] else []

/-- The part of a scalar behind its type. -/
def defaultLexemes : Option Default → List Lexeme
  | none => []
  | some (.literal text) => [.mark ':', .literal text.toList]
  | some (.bare text) => spelled (':' :: text.toList)

/-- A group of items. -/
def groupLexemes (kind : Bracket) (items : List (List Lexeme)) : List Lexeme :=
  .mark kind.opener :: [.mark ','].intercalate items ++ [.mark kind.closer]

namespace Draft

mutual

/-- The lexemes of a draft. -/
def lexemes : Draft → List Lexeme
  | .scalar optional type declared =>
    spelled (optionalMark optional) ++ (spelled type.toList ++ defaultLexemes declared)
  | .array optional parts =>
    spelled (optionalMark optional) ++ groupLexemes .square (partLexemes parts)
  | .object optional entries =>
    spelled (optionalMark optional) ++ groupLexemes .curly (entryLexemes entries)

/-- The lexemes of the parts of an array. -/
def partLexemes : List Draft → List (List Lexeme)
  | [] => []
  | d :: ds => d.lexemes :: partLexemes ds

/-- The lexemes of the entries of an object. -/
def entryLexemes : List (Option String × Draft) → List (List Lexeme)
  | [] => []
  | (name, d) :: es => (spelled ((entryName name).toList ++ [':']) ++ d.lexemes) :: entryLexemes es

end

theorem partLexemes_eq_map (ds : List Draft) : partLexemes ds = ds.map lexemes := by
  induction ds with
  | nil => rfl
  | cons d ds ih => rw [partLexemes, ih, List.map_cons]

theorem entryLexemes_eq_map (es : List (Option String × Draft)) :
    entryLexemes es =
      es.map fun e => spelled ((entryName e.1).toList ++ [':']) ++ e.2.lexemes := by
  induction es with
  | nil => rfl
  | cons e es ih => rw [entryLexemes, ih, List.map_cons]

end Draft

/-- A text spells lexemes: they follow one another, and white space stands
anywhere outside literals. -/
inductive Spells : List Lexeme → List Char → Prop
  | nil : Spells [] []
  | blank {ls text} (c : Char) : isBlank c → Spells ls text → Spells ls (c :: text)
  | mark {ls text} (c : Char) : Spells ls text → Spells (.mark c :: ls) (c :: text)
  | literal {ls text} (body : List Char) : Spells ls text →
      Spells (.literal body :: ls) ('"' :: (body ++ '"' :: text))

/-- A text writes a draft down. -/
def Draft.WrittenAs (d : Draft) (text : String) : Prop := Spells d.lexemes text.toList

/-! ### Drafts that can be read -/

/-- A word has no white space and none of the characters that make the structure
of a schema text. -/
def IsWord (word : String) : Prop :=
  ∀ c ∈ word.toList, isBlank c = false ∧ c ∉ ['"', '[', ']', '{', '}', ',', ':']

instance : DecidablePred IsWord := fun word => List.decidableBAll _ word.toList

/-- A run of digits, as it denotes the number of an entry. -/
def IsNumber (text : List Char) : Prop := text ≠ [] ∧ ∀ c ∈ text, c.isDigit

instance : DecidablePred IsNumber := fun text =>
  @instDecidableAnd _ _ inferInstance (List.decidableBAll _ text)

/-- A type name is a word that is no reference and does not begin with the mark of
an optional term. -/
structure IsTypeName (type : String) : Prop where
  word : IsWord type
  unmarked : type.toList.head? ≠ some '?'
  noNumber : ¬ IsNumber type.toList

/-- A literal holds no quote.  A bare default is a word that is there and is no
placeholder. -/
def Default.IsProper : Default → Prop
  | .literal text => '"' ∉ text.toList
  | .bare text => IsWord text ∧ text.toList ≠ [] ∧
      ∀ digits, text.toList = '$' :: digits → ¬ IsNumber digits

/-- The names and defaults of a draft can be told from the structure around them,
and every array has a part. -/
inductive Draft.WellFormed : Draft → Prop
  | scalar {optional type declared} : IsTypeName type → (∀ d ∈ declared, Default.IsProper d) →
      WellFormed (.scalar optional type declared)
  | array {optional parts} : parts ≠ [] → (∀ d ∈ parts, WellFormed d) →
      WellFormed (.array optional parts)
  | object {optional entries} :
      (∀ e ∈ entries, ∀ name ∈ e.1, IsWord name ∧ name ≠ wildcardName) →
      (∀ e ∈ entries, WellFormed e.2) → WellFormed (.object optional entries)

end TerseSchema
