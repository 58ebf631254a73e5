import Mathlib.Data.List.TakeDrop
import Mathlib.Data.List.TakeWhile
import TerseSchema.Proofs.Assembly
import TerseSchema.Proofs.Sharing

/-!
# A written schema reads back

However a draft is written down, reading the text gives the schema that the draft
stands for.  The two passes meet in the flat form: assembling leaves a piece of
text behind for every term, and the term is read back from the piece over any flat
schema that holds the entries recorded so far (`Stands`).  Entries are only ever
added, so a piece keeps its meaning while the rest of the text is read.

## Main definitions

* `Stands` — what a piece of flat text stands for over two tables.
* `IsReading` — what holds of a draft and the term that is read for it.
* `FlatSchema.Addressable` — every entry has a number that fits 64 bits.

## Main results

* `Draft.WellFormed.assembles` — every term leaves a piece behind that stands for it.
* `flatten_of_isReading` — the root of the flat form is read for the draft.
* `compile_flatten_of_writtenAs` — **a written draft reads back.**
-/

namespace TerseSchema

/-! ### Reading terms -/

/-- The numbers of all entries and literals fit 64 bits. -/
def FlatSchema.Addressable (s : FlatSchema) : Prop :=
  s.lookups.length ≤ pow2 64 ∧ s.literals.length ≤ pow2 64

theorem Reference.parse?_eq_none {text : List Char} (h : ¬ IsNumber text) :
    Reference.parse? text = none := by
  rw [Reference.parse?, if_neg]
  simpa [IsNumber, List.all_eq_true] using h

theorem Term.parse_optionalMark (literals : List (List Char)) (optional : Bool)
    {text : List Char} (h : text.head? ≠ some '?') :
    Term.parse literals (optionalMark optional ++ text) =
      ⟨optional, Term.parseContent literals text⟩ := by
  cases optional with
  | true => rfl
  | false =>
    show Term.parse literals text = _
    rw [Term.parse]
    rintro rest rfl
    exact h rfl

theorem IsWord.notMem {word : String} (h : IsWord word) {c : Char}
    (hc : c ∈ ['"', '[', ']', '{', '}', ',', ':']) : c ∉ word.toList :=
  fun hmem => (h c hmem).2 hc

/-- A name that can be told from the structure around it. -/
theorem isWord_entryName {name : Option String} (h : ∀ n ∈ name, IsWord n) :
    IsWord (entryName name) := by
  cases name with
  | none => exact fun c hc => by simp_all [entryName, wildcardName]; decide
  | some n => exact h n rfl

theorem IsWord.plain {word : String} (h : IsWord word) :
    ∀ c ∈ word.toList, c ∉ ['[', '{', ']', '}'] := by
  intro c hc hmem
  refine (h c hc).2 ?_
  revert hmem
  simp only [List.mem_cons, List.not_mem_nil, or_false]
  tauto

theorem plain_optionalMark (optional : Bool) :
    ∀ c ∈ optionalMark optional, c ∉ ['[', '{', ']', '}'] := by
  cases optional <;> simp [optionalMark]

theorem takeWhile_ne_colon {text : List Char} (h : ':' ∉ text) :
    text.takeWhile (· ≠ ':') = text :=
  List.takeWhile_eq_self_iff.mpr fun _ hc => decide_eq_true fun e => h (e ▸ hc)

/-- A text is split at its first colon. -/
theorem span_ne_colon {text rest : List Char} (h : ':' ∉ text)
    (hr : ∀ c ∈ rest.head?, c = ':') : (text ++ rest).span (· ≠ ':') = (text, rest) := by
  have htext : ∀ c ∈ text, decide (c ≠ ':') = true :=
    fun _ hc => decide_eq_true fun e => h (e ▸ hc)
  rw [List.span_eq_takeWhile_dropWhile, List.takeWhile_append_of_pos htext,
    List.dropWhile_append_of_pos htext]
  cases rest with
  | nil => rw [List.takeWhile_nil, List.dropWhile_nil, List.append_nil]
  | cons c rest =>
    obtain rfl := hr c rfl
    simp

/-- The text of a default behind its type, over a table of literals. -/
inductive WritesDefault (literals : List (List Char)) : Option Default → List Char → Prop
  | none : WritesDefault literals none []
  | literal {text : String} {index : Nat} : literals[index]? = some text.toList →
      WritesDefault literals (some (.literal text)) (':' :: '$' :: Reference.digits index)
  | bare (text : String) : WritesDefault literals (some (.bare text)) (':' :: text.toList)

theorem Term.parseDefault_of_writesDefault {literals : List (List Char)}
    (hs : literals.length ≤ pow2 64) {declared : Option Default} {text : List Char}
    (h : WritesDefault literals declared text) (hp : ∀ d ∈ declared, Default.IsProper d) :
    Term.parseDefault literals ((text.drop 1).takeWhile (· ≠ ':')) = declared := by
  cases h with
  | none => rfl
  | @literal text index hl =>
    have hindex : index < literals.length := (List.getElem?_eq_some_iff.mp hl).1
    have hcolon : ':' ∉ '$' :: Reference.digits index := by
      rw [List.mem_cons, not_or]
      exact ⟨by decide, Reference.notMem_digits (by decide)⟩
    rw [List.drop_one, List.tail_cons, takeWhile_ne_colon hcolon, Term.parseDefault,
      Reference.parse?_digits (Nat.lt_of_lt_of_le hindex hs), Option.bind_some, hl]
    simp
  | bare text =>
    obtain ⟨hword, hne, hplaceholder⟩ := hp _ rfl
    rw [List.drop_one, List.tail_cons, takeWhile_ne_colon (hword.notMem (by decide))]
    unfold Term.parseDefault
    split
    · next heq => exact absurd heq hne
    · next digits heq =>
      -- a dollar sign that no number follows is a default like any other
      rw [Reference.parse?_eq_none (hplaceholder digits heq), Option.bind_none]
      show some (Default.bare (String.ofList text.toList)) = _
      rw [String.ofList_toList]
    · rw [String.ofList_toList]

/-- The text of a scalar says what the scalar says. -/
theorem Term.parseContent_scalar {literals : List (List Char)}
    (hs : literals.length ≤ pow2 64) {type : String} {declared : Option Default}
    {text : List Char} (ht : IsTypeName type) (h : WritesDefault literals declared text)
    (hp : ∀ d ∈ declared, Default.IsProper d) :
    Term.parseContent literals (type.toList ++ text) = .scalar type declared := by
  -- the colon before a default keeps a scalar from being read as a reference
  have hnumber : ¬ IsNumber (type.toList ++ text) := by
    cases h with
    | none => rw [List.append_nil]; exact ht.noNumber
    | literal _ => exact fun hn => absurd (hn.2 ':' (by simp)) (by decide)
    | bare _ => exact fun hn => absurd (hn.2 ':' (by simp)) (by decide)
  have hspan : (type.toList ++ text).span (· ≠ ':') = (type.toList, text) :=
    span_ne_colon (ht.word.notMem (by decide)) (by cases h <;> simp)
  rw [Term.parseContent, Reference.parse?_eq_none hnumber]
  simp only [hspan, Term.parseDefault_of_writesDefault hs h hp, String.ofList_toList]

/-! ### What pieces stand for -/

/-- What may be said of a term over a flat schema, of which it may refer to the first
`bound` entries. -/
abbrev TermProp := FlatSchema → Nat → Term → Prop

/-- A piece of flat text stands for a term with a property: it is one item of a group,
and what is read from it has the property wherever both tables begin as they do here. -/
structure Stands (T : TermProp) (lookups literals : List (List Char)) (piece : List Char) :
    Prop where
  comma : ',' ∉ piece
  stands : ∀ s : FlatSchema, s.Addressable → lookups <+: s.lookups →
    literals <+: s.literals → ∀ bound, lookups.length ≤ bound →
    T s bound (Term.parse s.literals piece)

theorem stands_stable (T : TermProp) : PieceProp.Stable (Stands T) := by
  intro lookups literals L M piece h
  refine ⟨h.comma, fun s hs hL hM bound hb => ?_⟩
  have hlookups : lookups <+: s.lookups := (List.prefix_append _ _).trans hL
  have hliterals : literals <+: s.literals := (List.prefix_append _ _).trans hM
  refine h.stands s hs hlookups hliterals bound (Nat.le_trans ?_ hb)
  rw [List.length_append]
  exact Nat.le_add_right _ _

/-- What a group has that is recorded behind `lookups` once it is referred to. -/
def Referred (T : TermProp) (optional : Bool) (lookups literals : List (List Char))
    (body : List Char) : Prop :=
  ∀ s : FlatSchema, s.Addressable → lookups <+: s.lookups → literals <+: s.literals →
    s.group lookups.length = Group.parse s.literals body →
    ∀ bound, lookups.length < bound → T s bound ⟨optional, .reference lookups.length⟩

/-- The number of a recorded group stands for a reference to it. -/
theorem stands_reference {T : TermProp} {optional : Bool} {lookups literals : List (List Char)}
    {body : List Char} (h : Referred T optional lookups literals body) :
    Stands T (lookups ++ [body]) literals
      (optionalMark optional ++ Reference.digits lookups.length) := by
  refine ⟨?_, fun s hs hL hM bound hb => ?_⟩
  · rw [List.mem_append, not_or]
    exact ⟨by cases optional <;> decide, Reference.notMem_digits (by decide)⟩
  have hlength : lookups.length < s.lookups.length := by
    have := hL.length_le
    rw [List.length_append, List.length_singleton] at this
    omega
  have hbody : s.group lookups.length = Group.parse s.literals body := by
    obtain ⟨later, hlater⟩ := hL
    rw [FlatSchema.group, ← hlater]
    simp
  have hunmarked : (Reference.digits lookups.length).head? ≠ some '?' := by
    intro he
    exact Reference.notMem_digits (by decide) (List.mem_of_head? he)
  -- the entry was recorded before anything that may refer to it
  have hbound : lookups.length < bound := by
    rw [List.length_append, List.length_singleton] at hb
    omega
  rw [Term.parse_optionalMark _ _ hunmarked, Term.parseContent,
    Reference.parse?_digits (Nat.lt_of_lt_of_le hlength hs.1)]
  exact h s hs ((List.prefix_append _ _).trans hL) hM hbody bound hbound

/-! ### Groups -/

theorem Group.inner_group (kind : Bracket) (body : List Char) :
    Group.inner (kind.opener :: (body ++ [kind.closer])) = body := by
  have hopener : kind.opener.utf8Size = 1 := by cases kind <;> decide
  have hcloser : kind.closer.utf8Size = 1 := by cases kind <;> decide
  simp [Group.inner, hopener, hcloser]

theorem Group.parse_square (literals : List (List Char)) {pieces : List (List Char)}
    (hne : pieces ≠ []) (hc : ∀ piece ∈ pieces, ',' ∉ piece) :
    Group.parse literals
        (Bracket.square.opener :: ([','].intercalate pieces ++ [Bracket.square.closer])) =
      .array (pieces.map (Term.parse literals)) := by
  rw [Group.parse, Group.inner_group, List.splitOn_intercalate _ hc hne]
  rfl

theorem Group.parse_curly (literals : List (List Char)) {pieces : List (List Char)}
    (hne : ∀ piece ∈ pieces, piece ≠ []) (hc : ∀ piece ∈ pieces, ',' ∉ piece) :
    Group.parse literals
        (Bracket.curly.opener :: ([','].intercalate pieces ++ [Bracket.curly.closer])) =
      .object (pieces.map (Group.parseEntry literals)) := by
  rw [Group.parse, Group.inner_group]
  by_cases hnil : pieces = []
  · -- the one empty piece of an empty body is skipped
    subst hnil
    rfl
  · rw [List.splitOn_intercalate _ hc hnil, List.filter_eq_self.mpr (by simpa using hne)]
    rfl

/-- A group of items stands for what its pieces make of it. -/
theorem assembles_group {ι : Type} {kind : Bracket} {optional : Bool} {T : TermProp}
    {lexemes : ι → List Lexeme} {P : ι → PieceProp} (hP : ∀ i, (P i).Stable) {items : List ι}
    (h : ∀ i ∈ items, Assembles (lexemes i) (P i))
    (hgroup : ∀ lookups literals pieces,
      List.Forall₂ (fun i piece => P i lookups literals piece) items pieces →
      Referred T optional lookups literals
        (kind.opener :: ([','].intercalate pieces ++ [kind.closer]))) :
    Assembles (spelled (optionalMark optional) ++ groupLexemes kind (items.map lexemes))
      (Stands T) := by
  intro lookups literals
  obtain ⟨body, L, M, hwrites, pieces, rfl, hpieces⟩ := assembles_items hP h lookups literals
  refine ⟨optionalMark optional ++ Reference.digits (lookups ++ L).length,
    L ++ [kind.opener :: ([','].intercalate pieces ++ [kind.closer])], M, fun a hL hM => ?_, ?_⟩
  · have hmark := writes_spelled (optionalMark optional) a (plain_optionalMark optional)
    have hinner := writes_group kind (a.put (optionalMark optional) [] []) fun offset =>
      hwrites _ (by simp [Assembly.opened, hL]) (by simp [Assembly.opened, hM])
    have hall := hmark.append hinner
    rw [Assembly.put_put, Assembly.lookups_put, List.append_nil, hL] at hall
    exact hall
  · rw [← List.append_assoc]
    exact stands_reference (hgroup _ _ _ hpieces)

/-- The text of an entry: its name, a colon and the piece of its term. -/
def EntryStands (name : Option String) (T : TermProp) : PieceProp := fun lookups literals text =>
  IsWord (entryName name) ∧
    ∃ piece, text = (entryName name).toList ++ ':' :: piece ∧ Stands T lookups literals piece

theorem entryStands_stable (name : Option String) (T : TermProp) :
    (EntryStands name T).Stable := by
  rintro lookups literals L M _ ⟨hword, piece, rfl, h⟩
  exact ⟨hword, piece, rfl, stands_stable T _ _ _ _ _ h⟩

theorem EntryStands.ne_nil {name : Option String} {T : TermProp}
    {lookups literals : List (List Char)} {text : List Char}
    (h : EntryStands name T lookups literals text) : text ≠ [] := by
  obtain ⟨_, piece, rfl, _⟩ := h
  simp

theorem EntryStands.comma {name : Option String} {T : TermProp}
    {lookups literals : List (List Char)} {text : List Char}
    (h : EntryStands name T lookups literals text) : ',' ∉ text := by
  obtain ⟨hword, piece, rfl, he⟩ := h
  rw [List.mem_append, List.mem_cons, not_or, not_or]
  exact ⟨hword.notMem (by decide), by decide, he.comma⟩

theorem assembles_entry {name : Option String} {T : TermProp} {ls : List Lexeme}
    (hword : IsWord (entryName name)) (h : Assembles ls (Stands T)) :
    Assembles (spelled ((entryName name).toList ++ [':']) ++ ls) (EntryStands name T) := by
  intro lookups literals
  obtain ⟨piece, L, M, hwrites, he⟩ := h lookups literals
  refine ⟨(entryName name).toList ++ [':'] ++ piece, L, M, fun a hL hM => ?_, hword, piece, ?_, he⟩
  · have hplain : ∀ c ∈ (entryName name).toList ++ [':'], c ∉ ['[', '{', ']', '}'] :=
      List.forall_mem_append.mpr ⟨hword.plain, by simp⟩
    have hname := writes_spelled _ a hplain
    have hall := hname.append (hwrites _ (by simp [hL]) (by simp [hM]))
    rw [Assembly.put_put, List.nil_append, List.nil_append] at hall
    exact hall
  · rw [List.append_assoc, List.singleton_append]

/-! ### Drafts -/

/-- A default leaves its text behind, and its literal in the table. -/
theorem assembles_default {declared : Option Default}
    (h : ∀ d ∈ declared, Default.IsProper d) :
    Assembles (defaultLexemes declared) fun _ literals text =>
      WritesDefault literals declared text ∧ ',' ∉ text := by
  intro lookups literals
  rcases declared with _ | text | text
  · exact ⟨[], [], [], fun a _ _ => a.put_nil, .none, by decide⟩
  · refine ⟨':' :: '$' :: Reference.digits literals.length, [], [text.toList],
      fun a _ hM => ?_, .literal ?_, ?_⟩
    · have hcolon := writes_spelled [':'] a (by simp)
      have hall := hcolon.append (writes_literal text.toList _)
      rw [Assembly.put_put, Assembly.literals_put, List.append_nil, hM] at hall
      exact hall
    · rw [List.getElem?_append_right (Nat.le_refl _), Nat.sub_self]
      rfl
    · rw [List.mem_cons, List.mem_cons, not_or, not_or]
      exact ⟨by decide, by decide, Reference.notMem_digits (by decide)⟩
  · have hword : IsWord text := (h _ rfl).1
    refine ⟨':' :: text.toList, [], [], fun a _ _ => writes_spelled _ a ?_, .bare text, ?_⟩
    · exact List.forall_mem_cons.mpr ⟨by decide, hword.plain⟩
    · rw [List.mem_cons, not_or]
      exact ⟨by decide, hword.notMem (by decide)⟩

theorem WritesDefault.mono {literals more : List (List Char)} {declared : Option Default}
    {text : List Char} (h : WritesDefault literals declared text) (hp : literals <+: more) :
    WritesDefault more declared text := by
  cases h with
  | none => exact .none
  | literal hl =>
    obtain ⟨later, rfl⟩ := hp
    refine .literal ?_
    rw [List.getElem?_append_left (List.getElem?_eq_some_iff.mp hl).1, hl]
  | bare text => exact .bare text

/-- A scalar leaves its text behind, which stands for the scalar. -/
theorem assembles_scalar {T : TermProp} {optional : Bool} {type : String}
    {declared : Option Default} (ht : IsTypeName type) (hd : ∀ d ∈ declared, Default.IsProper d)
    (hT : ∀ s bound, T s bound ⟨optional, .scalar type declared⟩) :
    Assembles (Draft.scalar optional type declared).lexemes (Stands T) := by
  intro lookups literals
  obtain ⟨text, L, M, hwrites, htext, hcomma⟩ := assembles_default hd lookups literals
  refine ⟨optionalMark optional ++ (type.toList ++ text), L, M, fun a hL hM => ?_, ?_, ?_⟩
  · have hmark := writes_spelled (optionalMark optional) a (plain_optionalMark optional)
    have htype := writes_spelled type.toList (a.put (optionalMark optional) [] []) ht.word.plain
    have hdefault := hwrites ((a.put (optionalMark optional) [] []).put type.toList [] [])
      (by simp [hL]) (by simp [hM])
    have hall := hmark.append (htype.append hdefault)
    simp only [Assembly.put_put, List.append_nil, List.nil_append, List.append_assoc] at hall
    rw [Draft.lexemes]
    exact hall
  · rw [List.mem_append, List.mem_append, not_or, not_or]
    exact ⟨by cases optional <;> decide, ht.word.notMem (by decide), hcomma⟩
  · intro s hs hL hM bound hb
    have hunmarked : (type.toList ++ text).head? ≠ some '?' := by
      rw [List.head?_append]
      cases hh : type.toList.head? with
      | some c => exact fun e => ht.unmarked (hh.trans e)
      | none => cases htext <;> simp
    rw [Term.parse_optionalMark _ _ hunmarked,
      Term.parseContent_scalar hs.2 ht (htext.mono hM) hd]
    exact hT s bound

theorem parseEntry_eq (literals : List (List Char)) {name : Option String}
    (h : IsWord (entryName name)) (piece : List Char) :
    Group.parseEntry literals ((entryName name).toList ++ ':' :: piece) =
      (entryName name, Term.parse literals piece) := by
  have hspan : ((entryName name).toList ++ ':' :: piece).span (· ≠ ':') =
      ((entryName name).toList, ':' :: piece) :=
    span_ne_colon (h.notMem (by decide)) fun _ hc => (Option.some.inj hc).symm
  rw [Group.parseEntry]
  simp only [hspan, String.ofList_toList, List.drop_one, List.tail_cons]

/-- A property of drafts and of the terms that are read for them, which scalars have,
and a reference to a group if the terms of the group have it. -/
structure IsReading (T : Draft → TermProp) : Prop where
  scalar : ∀ optional type declared s bound,
    T (.scalar optional type declared) s bound ⟨optional, .scalar type declared⟩
  array : ∀ {optional parts s bound index terms}, index < bound → s.group index = .array terms →
    List.Forall₂ (fun d t => T d s index t) parts terms →
    T (.array optional parts) s bound ⟨optional, .reference index⟩
  object : ∀ {optional entries s bound index terms}, index < bound →
    s.group index = .object terms → (∀ e ∈ entries, ∀ name ∈ e.1, name ≠ wildcardName) →
    List.Forall₂ (fun e t => t.1 = entryName e.1 ∧ T e.2 s index t.2) entries terms →
    T (.object optional entries) s bound ⟨optional, .reference index⟩

/-- **Every term leaves a piece behind that stands for it**, and adds to the tables
what it refers to. -/
theorem Draft.WellFormed.assembles {T : Draft → TermProp} (hT : IsReading T) {d : Draft}
    (h : d.WellFormed) : Assembles d.lexemes (Stands (T d)) := by
  induction h with
  | scalar ht hd => exact assembles_scalar ht hd fun s bound => hT.scalar _ _ _ s bound
  | @array optional parts hne _ ih =>
    rw [Draft.lexemes, Draft.partLexemes_eq_map]
    refine assembles_group (P := fun d => Stands (T d)) (fun d => stands_stable _) ih
      fun lookups literals pieces hpieces s hs hL hM hbody bound hb => ?_
    have hsome : pieces ≠ [] := by
      rintro rfl
      exact hne (List.forall₂_nil_right_iff.mp hpieces)
    have hcomma : ∀ piece ∈ pieces, ',' ∉ piece :=
      forall_mem_right hpieces fun _ _ he => he.comma
    rw [Group.parse_square _ hsome hcomma] at hbody
    refine hT.array hb hbody (List.forall₂_map_right_iff.mpr (hpieces.imp fun d piece he => ?_))
    exact he.stands s hs hL hM _ (Nat.le_refl _)
  | @object optional entries hnames _ ih =>
    rw [Draft.lexemes, Draft.entryLexemes_eq_map]
    have hword : ∀ e ∈ entries, IsWord (entryName e.1) :=
      fun e he => isWord_entryName fun n hn => (hnames e he n hn).1
    refine assembles_group (P := fun e => EntryStands e.1 (T e.2))
      (fun e => entryStands_stable _ _) (fun e he => ?_)
      fun lookups literals pieces hpieces s hs hL hM hbody bound hb => ?_
    · exact assembles_entry (hword e he) (ih e he)
    · have hsome : ∀ piece ∈ pieces, piece ≠ [] := forall_mem_right hpieces fun _ _ he => he.ne_nil
      have hcomma : ∀ piece ∈ pieces, ',' ∉ piece := forall_mem_right hpieces fun _ _ he => he.comma
      rw [Group.parse_curly _ hsome hcomma] at hbody
      refine hT.object hb hbody (fun e he n hn => (hnames e he n hn).2)
        (List.forall₂_map_right_iff.mpr (hpieces.imp ?_))
      rintro e _ ⟨hword, piece, rfl, he⟩
      rw [parseEntry_eq _ hword]
      exact ⟨rfl, he.stands s hs hL hM _ (Nat.le_refl _)⟩

/-! ### Elaborating what is read -/

/-- A group of parts elaborates part by part. -/
theorem groupTree_parts {term : Term → Except SchemaError Tree} {parts : List Draft}
    {terms : List Term} (optional : Bool)
    (h : List.Forall₂ (fun d t => term t = .ok d.tree) parts terms) :
    groupTree term optional (.array terms) = .ok (.array optional (parts.map Draft.tree)) := by
  have hterms : List.Forall₂ (fun t tree => term t = .ok tree) terms (parts.map Draft.tree) := by
    rw [List.forall₂_map_right_iff]
    exact h.flip
  rw [groupTree, mapM_eq_ok_iff.mpr hterms]
  rfl

/-- A group of entries elaborates entry by entry, and then repeated names are
taken together. -/
theorem groupTree_entries {term : Term → Except SchemaError Tree}
    {entries : List (Option String × Draft)} {terms : List (String × Term)} (optional : Bool)
    (hnames : ∀ e ∈ entries, ∀ name ∈ e.1, name ≠ wildcardName)
    (h : List.Forall₂ (fun e t => t.1 = entryName e.1 ∧ term t.2 = .ok e.2.tree) entries terms) :
    groupTree term optional (.object terms) =
      .ok (.object optional (fieldsOf (entries.map (Prod.map id Draft.tree)))
        (restOf (entries.map (Prod.map id Draft.tree)))) := by
  have hentries : List.Forall₂ (fun (t : String × Term) e' =>
      (do return (t.1, ← term t.2) : Except SchemaError (String × Tree)) = .ok e')
      terms ((entries.map (Prod.map id Draft.tree)).map writtenEntry) := by
    rw [List.map_map, List.forall₂_map_right_iff]
    refine h.flip.imp ?_
    rintro t e ⟨hname, he⟩
    rw [he, hname]
    rfl
  have hwild : ∀ e ∈ entries.map (Prod.map id Draft.tree), ∀ name ∈ e.1, name ≠ wildcardName := by
    intro e he name hname
    obtain ⟨e', he', rfl⟩ := List.mem_map.mp he
    exact hnames e' he' name hname
  rw [groupTree]
  show (terms.mapM _ >>= _) = _
  rw [mapM_eq_ok_iff.mpr hentries]
  show Except.ok (Tree.object optional (declaredFields _) (wildcard? _)) = _
  rw [declaredFields_eq_fieldsOf hwild, wildcard?_eq_restOf hwild]

/-- The term that is read for a draft elaborates to its schema. -/
def Elaborates (d : Draft) : TermProp := fun s bound t =>
  termTree (entryTree s bound) t = .ok d.tree

theorem isReading_elaborates : IsReading Elaborates where
  scalar _ _ _ _ _ := by
    rw [Elaborates, Draft.tree]
    rfl
  array := by
    intro optional parts s bound index terms hb hgroup hterms
    rw [Elaborates, Draft.tree, Draft.partTrees_eq_map]
    show entryTree s bound index optional = _
    rw [entryTree_eq, if_pos hb, hgroup]
    exact groupTree_parts optional hterms
  object := by
    intro optional entries s bound index terms hb hgroup hnames hterms
    rw [Elaborates, Draft.tree, Draft.entryTrees_eq_map]
    show entryTree s bound index optional = _
    rw [entryTree_eq, if_pos hb, hgroup]
    exact groupTree_entries optional hnames hterms

/-! ### Legibility -/

theorem IsWord.legible {word : String} (h : IsWord word) :
    ∀ c ∈ word.toList, c ≠ '"' ∧ isBlank c = false :=
  fun c hc => ⟨fun e => (h c hc).2 (by rw [e]; decide), (h c hc).1⟩

theorem legible_optionalMark (optional : Bool) :
    ∀ l ∈ spelled (optionalMark optional), l.IsLegible := by
  refine legible_spelled ?_
  cases optional with
  | false => exact List.forall_mem_nil _
  | true => exact List.forall_mem_singleton.mpr ⟨by decide, by decide⟩

theorem legible_default {declared : Option Default} (h : ∀ d ∈ declared, Default.IsProper d) :
    ∀ l ∈ defaultLexemes declared, l.IsLegible := by
  rcases declared with _ | text | text
  · exact List.forall_mem_nil _
  · have hquote : '"' ∉ text.toList := h _ rfl
    refine List.forall_mem_cons.mpr ⟨⟨by decide, by decide⟩, ?_⟩
    exact List.forall_mem_cons.mpr ⟨hquote, List.forall_mem_nil _⟩
  · have hword : IsWord text := (h _ rfl).1
    exact legible_spelled (List.forall_mem_cons.mpr ⟨by decide, hword.legible⟩)

theorem legible_items {items : List (List Lexeme)} (h : ∀ ls ∈ items, ∀ l ∈ ls, l.IsLegible) :
    ∀ l ∈ [.mark ','].intercalate items, l.IsLegible := by
  induction items with
  | nil => exact List.forall_mem_nil _
  | cons ls items ih =>
    obtain ⟨hls, hitems⟩ := List.forall_mem_cons.mp h
    by_cases hnil : items = []
    · subst hnil
      rw [List.intercalate_singleton]
      exact hls
    · have hcomma : ∀ l ∈ [Lexeme.mark ','], l.IsLegible :=
        List.forall_mem_singleton.mpr ⟨by decide, by decide⟩
      rw [List.intercalate_cons_of_ne_nil hnil]
      exact List.forall_mem_append.mpr ⟨List.forall_mem_append.mpr ⟨hls, hcomma⟩, ih hitems⟩

theorem legible_group (kind : Bracket) {items : List (List Lexeme)}
    (h : ∀ ls ∈ items, ∀ l ∈ ls, l.IsLegible) :
    ∀ l ∈ groupLexemes kind items, l.IsLegible := by
  have hopener : (Lexeme.mark kind.opener).IsLegible := by
    cases kind <;> exact ⟨by decide, by decide⟩
  have hcloser : (Lexeme.mark kind.closer).IsLegible := by
    cases kind <;> exact ⟨by decide, by decide⟩
  refine List.forall_mem_append.mpr ⟨?_, List.forall_mem_singleton.mpr hcloser⟩
  exact List.forall_mem_cons.mpr ⟨hopener, legible_items h⟩

theorem Draft.WellFormed.legible {d : Draft} (h : d.WellFormed) :
    ∀ l ∈ d.lexemes, l.IsLegible := by
  induction h with
  | @scalar optional type declared ht hd =>
    rw [Draft.lexemes]
    refine List.forall_mem_append.mpr ⟨legible_optionalMark optional, ?_⟩
    exact List.forall_mem_append.mpr ⟨legible_spelled ht.word.legible, legible_default hd⟩
  | @array optional parts _ _ ih =>
    rw [Draft.lexemes, Draft.partLexemes_eq_map]
    refine List.forall_mem_append.mpr ⟨legible_optionalMark optional, legible_group _ ?_⟩
    exact List.forall_mem_map.mpr ih
  | @object optional entries hnames _ ih =>
    rw [Draft.lexemes, Draft.entryLexemes_eq_map]
    refine List.forall_mem_append.mpr ⟨legible_optionalMark optional, legible_group _ ?_⟩
    refine List.forall_mem_map.mpr fun e he => List.forall_mem_append.mpr ⟨?_, ih e he⟩
    have hword : IsWord (entryName e.1) := isWord_entryName fun n hn => (hnames e he n hn).1
    have hcolon : ∀ c ∈ [':'], c ≠ '"' ∧ isBlank c = false :=
      List.forall_mem_singleton.mpr ⟨by decide, by decide⟩
    exact legible_spelled (List.forall_mem_append.mpr ⟨hword.legible, hcolon⟩)

/-! ### Sizes -/

/-- A character adds at most one token. -/
theorem Reader.length_tokens_step (r : Reader) (c : Char) :
    (r.step c).tokens.length ≤ r.tokens.length + 1 := by
  have hof : (Token.ofChar? c r.offset).toList.length ≤ 1 := by
    cases Token.ofChar? c r.offset <;> simp
  unfold Reader.step
  split
  · split
    · exact Nat.le_refl _
    · exact Nat.le_succ _
  · split
    · exact Nat.le_succ _
    · simp only [List.length_append]
      omega

theorem Reader.length_tokens_run (text : List Char) : ∀ r : Reader,
    (r.run text).tokens.length ≤ r.tokens.length + text.length := by
  induction text with
  | nil => exact fun r => Nat.le_refl _
  | cons c text ih =>
    intro r
    have hstep := r.length_tokens_step c
    have hrun := ih (r.step c)
    rw [Reader.run_cons, List.length_cons]
    omega

theorem length_tokens_le {text : List Char} {tokens : List Token}
    (h : tokenize text = .ok tokens) : tokens.length ≤ text.length := by
  have hrun := Reader.length_tokens_run text {}
  rw [tokenize] at h
  split at h
  · cases h
  · rw [← Except.ok.inj h, List.length_reverse]
    simpa using hrun

/-- The number of entries of both tables. -/
def Assembly.size (a : Assembly) : Nat := a.lookups.length + a.literals.length

/-- A token adds at most one entry. -/
theorem Assembly.size_step {a a' : Assembly} {t : Token} (h : a.step t = .ok a') :
    a'.size ≤ a.size + 1 := by
  have hemit : ∀ (b : Assembly) (piece : List Char), (b.emit piece).size = b.size := by
    intro b piece
    rw [Assembly.emit]
    split <;> rfl
  cases t with
  | plain c =>
    rw [← Except.ok.inj h, hemit]
    exact Nat.le_succ _
  | literal text =>
    rw [← Except.ok.inj h, hemit]
    simp [Assembly.size]
    omega
  | opening kind offset =>
    rw [← Except.ok.inj h]
    exact Nat.le_succ _
  | closing kind offset =>
    rw [Assembly.step] at h
    split at h
    · cases h
    · split at h
      · rw [← Except.ok.inj h, hemit]
        simp [Assembly.size]
        omega
      · cases h

theorem Assembly.size_run {tokens : List Token} : ∀ {a a' : Assembly},
    a.run tokens = .ok a' → a'.size ≤ a.size + tokens.length := by
  induction tokens with
  | nil =>
    intro a a' h
    rw [← Except.ok.inj h]
    exact Nat.le_refl _
  | cons t tokens ih =>
    intro a a' h
    rw [Assembly.run_cons] at h
    cases hs : a.step t with
    | error e =>
      rw [hs] at h
      cases h
    | ok mid =>
      rw [hs] at h
      have hstep := Assembly.size_step hs
      have hrest := ih h
      rw [List.length_cons]
      omega

/-! ### Round trip -/

/-- The root of the flat form of a text that writes a draft is read for the draft. -/
theorem flatten_of_isReading {T : Draft → TermProp} (hT : IsReading T) {d : Draft}
    (hd : d.WellFormed) {text : String} (ht : d.WrittenAs text) (hlength : text.length ≤ pow2 64) :
    ∃ s, flatten text = .ok s ∧ T d s s.lookups.length s.root := by
  obtain ⟨tokens, htokens, hreads⟩ := Spells.tokenize_eq ht hd.legible
  obtain ⟨piece, L, M, hwrites, hstands⟩ := hd.assembles hT [] []
  have hrun := (hwrites {} rfl rfl).run_eq hreads
  have hflatten : flatten text = .ok ⟨piece, L, M⟩ :=
    flatten_of_writes ht hd.legible (hwrites {} rfl rfl)
  -- every entry of a table takes a token, and every token a character
  have hsize : L.length + M.length ≤ text.length := by
    have h := Assembly.size_run hrun
    have h' := length_tokens_le htokens
    rw [String.length_toList] at h'
    simp only [Assembly.size, Assembly.lookups_put, Assembly.literals_put, List.nil_append,
      List.length_nil] at h
    omega
  have hs : FlatSchema.Addressable ⟨piece, L, M⟩ := by
    exact ⟨show L.length ≤ pow2 64 by omega, show M.length ≤ pow2 64 by omega⟩
  refine ⟨_, hflatten, ?_⟩
  exact hstands.stands ⟨piece, L, M⟩ hs (List.prefix_refl L) (List.prefix_refl M) L.length
    (Nat.le_refl _)

/-- The flat form of a text that writes a draft elaborates to its schema. -/
theorem flatten_of_writtenAs {d : Draft} (hd : d.WellFormed) {text : String}
    (ht : d.WrittenAs text) (hlength : text.length ≤ pow2 64) :
    ∃ s, flatten text = .ok s ∧ s.elaborate = .ok d.tree :=
  flatten_of_isReading isReading_elaborates hd ht hlength

/-- **A written draft reads back.**  However a draft is written down, reading the
text succeeds, and the arena seen from its root is the schema the draft stands
for: the draft itself, but for repeated names, which keep their first place and
their last meaning.  The bound is that of the numbers a flat schema may hold, and
no text of an address space of 64 bits is longer. -/
theorem compile_flatten_of_writtenAs {d : Draft} (hd : d.WellFormed) {text : String}
    (ht : d.WrittenAs text) (hlength : text.length ≤ pow2 64) :
    ∃ s a, flatten text = .ok s ∧ compile s = .ok a ∧ a.tree = d.tree := by
  obtain ⟨s, hflatten, helaborate⟩ := flatten_of_writtenAs hd ht hlength
  have hcompile := compile_map_tree s
  rw [helaborate] at hcompile
  cases hc : compile s with
  | error e =>
    rw [hc] at hcompile
    cases hcompile
  | ok a =>
    rw [hc] at hcompile
    exact ⟨s, a, hflatten, hc, Except.ok.inj hcompile⟩

/-- A draft with a name that is given twice, a literal that holds marks of structure,
a part without a type and a default without quotes. -/
def repeatedDraft : Draft :=
  .object false
    [(some "a", .scalar false "s" (some (.literal " x,]"))),
      (none, .scalar false "i" (some (.bare "5"))),
      (some "a", .array true [.scalar true "" none, .scalar false "n" none])]

theorem wellFormed_repeatedDraft : repeatedDraft.WellFormed := by
  have hs : IsTypeName "s" := ⟨by decide, by decide, by decide⟩
  have hi : IsTypeName "i" := ⟨by decide, by decide, by decide⟩
  have hn : IsTypeName "n" := ⟨by decide, by decide, by decide⟩
  have hempty : IsTypeName "" := ⟨by decide, by decide, by decide⟩
  have hliteral : ∀ d ∈ some (Default.literal " x,]"), Default.IsProper d := by
    rintro _ ⟨⟩
    show '"' ∉ " x,]".toList
    decide
  have hbare : ∀ d ∈ some (Default.bare "5"), Default.IsProper d := by
    rintro _ ⟨⟩
    refine ⟨by decide, by decide, fun digits h => ?_⟩
    cases h
  have hparts : ∀ d ∈ [Draft.scalar true "" none, Draft.scalar false "n" none], d.WellFormed := by
    simp only [List.forall_mem_cons]
    exact ⟨.scalar hempty (by simp), .scalar hn (by simp), List.forall_mem_nil _⟩
  refine .object ?_ ?_
  · simp only [List.forall_mem_cons]
    refine ⟨?_, ?_, ?_, ?_⟩ <;> simp <;> decide
  · simp only [List.forall_mem_cons]
    exact ⟨.scalar hs hliteral, .scalar hi hbare, .array (by simp) hparts, List.forall_mem_nil _⟩

theorem writtenAs_repeatedDraft :
    repeatedDraft.WrittenAs "\x7b a: s:\" x,]\", *:i:5,a : ?[?, n] \x7d" := by
  have hlexemes : repeatedDraft.lexemes = spelled ['{', 'a', ':', 's', ':'] ++
      .literal [' ', 'x', ',', ']'] :: spelled [',', '*', ':', 'i', ':', '5', ',', 'a', ':', '?',
        '[', '?', ',', 'n', ']', '}'] := by decide
  rw [Draft.WrittenAs, hlexemes]
  simp only [spelled, List.map_cons, List.map_nil, List.cons_append, List.nil_append]
  repeat first
    | refine .mark _ ?_
    | refine .blank _ rfl ?_
    | refine .literal [' ', 'x', ',', ']'] ?_
  exact .nil

theorem compile_flatten_repeatedDraft : ∃ s a,
    flatten "\x7b a: s:\" x,]\", *:i:5,a : ?[?, n] \x7d" = .ok s ∧ compile s = .ok a ∧
      a.tree = .object false [("a", .array true [.scalar true "" none, .scalar false "n" none])]
        (some (.scalar false "i" (some (.bare "5")))) :=
  compile_flatten_of_writtenAs wellFormed_repeatedDraft writtenAs_repeatedDraft (by decide)

end TerseSchema
