import TerseSchema.Proofs.InPlace
import TerseSchema.Proofs.Placement

/-!
# Placeholders do not show

A literal leaves a placeholder behind wherever it is written, and a placeholder is put
back in one place only: where it is the whole default of a scalar.  If the literals of a
text are written there and nowhere else, every one of them is the default of some node of
the arena, and no name, type or bare default of a node has a `$` that the text does not
have.

## Main definitions

* `QuotesDefault`, `Outline.QuotesDefaults` — literals are written as whole defaults only.
* `Piece.IsBare` — pieces without literals and without a `$`.
* `Node.words` — the names, the type and the bare default of a node.

## Main results

* `groups_clean`, `words_clean` — what is read of a text has no placeholder.
* `literals_placed` — the literals below a term are defaults of nodes.
* `literals_become_defaults` — **literals become defaults, and leave no placeholder.**
-/

namespace TerseSchema

open Piece

/-! ### Where literals are written -/

/-- If a scalar has a literal, then the literal is its whole default. -/
structure QuotesDefault (ps : List Piece) : Prop where
  type : quotesOf (splitColon ps).1 = []
  declared : quotesOf (splitColon (splitColon ps).2).1 = [] ∨ ∃ number text closed,
    (splitColon (splitColon ps).2).1 = [.literal number text closed]
  rest : quotesOf (splitColon (splitColon ps).2).2 = []

namespace Outline

/-- The literals of a text are whole defaults of scalars. -/
inductive QuotesDefaults : Outline → Prop
  | scalar {optional : Bool} {ps : List Piece} : QuotesDefault ps →
      QuotesDefaults (.scalar optional ps)
  | array {optional : Bool} {number : Nat} {parts : List Outline} :
      (∀ part ∈ parts, QuotesDefaults part) → QuotesDefaults (.array optional number parts)
  | object {optional : Bool} {number : Nat} {entries : List (List Piece × Outline)} :
      (∀ e ∈ entries, quotesOf e.1 = []) → (∀ e ∈ entries, QuotesDefaults e.2) →
      QuotesDefaults (.object optional number entries)

end Outline

/-- What may stand before the terms of a group: the names of an object. -/
def Piece.namesOf (kind : Bracket) (body : List Piece) : List (List Piece) :=
  match kind with
  | .square => []
  | .curly => (fields body).map Prod.fst

section
variable {ps body : List Piece} {number : Nat} {kind : Bracket}

theorem Outline.quotesDefaults_group (h : (unmark ps).2 = [.group number kind body])
    (hq : (outline ps).QuotesDefaults) :
    (∀ name ∈ namesOf kind body, quotesOf name = []) ∧
      ∀ term ∈ termsOf kind body, (outline term).QuotesDefaults := by
  cases kind with
  | square =>
    rw [outline_square h] at hq
    cases hq with
    | array hparts => exact ⟨List.forall_mem_nil _, List.forall_mem_map.mp hparts⟩
  | curly =>
    rw [outline_curly h] at hq
    cases hq with
    | object hnames hentries =>
      have hnames := List.forall_mem_map.mp hnames
      have hentries := List.forall_mem_map.mp hentries
      exact ⟨List.forall_mem_map.mpr hnames, List.forall_mem_map.mpr hentries⟩

theorem Outline.quotesDefaults_scalar
    (h : ∀ number kind body, (unmark ps).2 ≠ [.group number kind body])
    (hq : (outline ps).QuotesDefaults) : QuotesDefault (unmark ps).2 := by
  rw [outline_scalar h] at hq
  cases hq with
  | scalar hscalar => exact hscalar

end

/-! ### Nothing is lost between the marks -/

namespace Piece

theorem exists_mem_items {body : List Piece} {p : Piece} (hp : p ∈ body)
    (hcomma : p.isMark ',' = false) : ∃ item ∈ items body, p ∈ item := by
  induction body with
  | nil => cases hp
  | cons q body ih =>
    rw [items, List.splitOnP_cons_eq_if_modifyHead]
    cases hq : q.isMark ',' with
    | true =>
      rcases List.mem_cons.mp hp with rfl | hp
      · rw [hcomma] at hq
        cases hq
      · obtain ⟨item, hitem, hmem⟩ := ih hp
        exact ⟨item, List.mem_cons_of_mem _ hitem, hmem⟩
    | false =>
      obtain ⟨first, rest, hsplit⟩ := List.exists_cons_of_ne_nil (List.splitOnP_ne_nil _ body)
      rw [items, hsplit] at ih
      simp only [hsplit, Bool.false_eq_true, if_false, List.modifyHead_cons]
      rcases List.mem_cons.mp hp with rfl | hp
      · exact ⟨p :: first, List.mem_cons_self, List.mem_cons_self⟩
      · obtain ⟨item, hitem, hmem⟩ := ih hp
        rcases List.mem_cons.mp hitem with rfl | hitem
        · exact ⟨q :: item, List.mem_cons_self, List.mem_cons_of_mem _ hmem⟩
        · exact ⟨item, List.mem_cons_of_mem _ hitem, hmem⟩

theorem mem_splitColon {ps : List Piece} {p : Piece} (hp : p ∈ ps) (hcolon : p.isMark ':' = false) :
    p ∈ (splitColon ps).1 ∨ p ∈ (splitColon ps).2 := by
  induction ps with
  | nil => cases hp
  | cons q ps ih =>
    cases hq : q.isMark ':' with
    | true =>
      rcases List.mem_cons.mp hp with rfl | hp
      · rw [hcolon] at hq
        cases hq
      · right
        simpa [splitColon, hq] using hp
    | false =>
      have hsplit : splitColon (q :: ps) = (q :: (splitColon ps).1, (splitColon ps).2) := by
        simp [splitColon, hq]
      rw [hsplit]
      rcases List.mem_cons.mp hp with rfl | hp
      · exact .inl List.mem_cons_self
      · exact (ih hp).imp_left (List.mem_cons_of_mem _)

/-- A piece of a group is in one of its terms, or in one of its names. -/
theorem mem_names_or_terms {kind : Bracket} {body : List Piece} {p : Piece} (hp : p ∈ body)
    (hcomma : p.isMark ',' = false) (hcolon : p.isMark ':' = false) :
    (∃ name ∈ namesOf kind body, p ∈ name) ∨ ∃ term ∈ termsOf kind body, p ∈ term := by
  obtain ⟨item, hitem, hmem⟩ := exists_mem_items hp hcomma
  cases kind with
  | square => exact .inr ⟨item, hitem, hmem⟩
  | curly =>
    have hne : (!item.isEmpty) = true := by
      cases item with
      | nil => cases hmem
      | cons => rfl
    have hfield : splitColon item ∈ fields body :=
      List.mem_map_of_mem (List.mem_filter.mpr ⟨hitem, hne⟩)
    rcases mem_splitColon hmem hcolon with hname | hterm
    · exact .inl ⟨_, List.mem_map_of_mem hfield, hname⟩
    · exact .inr ⟨_, List.mem_map_of_mem hfield, hterm⟩

theorem sublist_of_mem_namesOf {kind : Bracket} {body name : List Piece}
    (h : name ∈ namesOf kind body) : name.Sublist body := by
  cases kind with
  | square => cases h
  | curly =>
    obtain ⟨f, hf, rfl⟩ := List.mem_map.mp h
    exact (sublist_of_mem_fields hf).1

/-- What is left of a mark only is recorded nowhere. -/
theorem isMark_eq_false_of_mem_entries {p : Piece} {e : List Char × Nat} (h : e ∈ p.entries)
    (c : Char) : p.isMark c = false := by
  cases p with
  | mark => cases h
  | literal => rfl
  | group => rfl

theorem isMark_eq_false_of_mem_quotes {p : Piece} {q : List Char × Nat} (h : q ∈ p.quotes)
    (c : Char) : p.isMark c = false := by
  cases p with
  | mark => cases h
  | literal => rfl
  | group => rfl

theorem notMem_quotes {ps : List Piece} (h : quotesOf ps = []) {p : Piece} (hp : p ∈ ps)
    {q : List Char × Nat} : q ∉ p.quotes := by
  rw [quotesOf_eq_flatMap, List.flatMap_eq_nil_iff] at h
  rw [h p hp]
  exact List.not_mem_nil

/-! ### Pieces without literals -/

/-- Pieces without literals and without a `$`, in groups as well. -/
structure IsBare (ps : List Piece) : Prop where
  quotes : quotesOf ps = []
  dollar : .mark '$' ∉ lexemesOf ps

theorem IsBare.sublist {ps qs : List Piece} (h : IsBare qs) (hs : ps.Sublist qs) : IsBare ps := by
  constructor
  · have hsub := quotesOf_sublist hs
    rw [h.quotes] at hsub
    exact List.sublist_nil.mp hsub
  · intro hmem
    exact h.dollar ((lexemesOf_sublist hs).subset hmem)

theorem dollar_notMem_body {number : Nat} {kind : Bracket} {body : List Piece}
    (h : .mark '$' ∉ lexemesOf [.group number kind body]) : .mark '$' ∉ lexemesOf body := by
  intro hmem
  apply h
  rw [lexemesOf, lexemes]
  simp [hmem]

/-- Bare pieces leave no `$` behind. -/
theorem IsBare.notMem_flatText {ps : List Piece} (h : IsBare ps) : '$' ∉ flatText ps := by
  intro hmem
  obtain ⟨p, hp, hmem⟩ := List.mem_flatMap.mp hmem
  have hone := h.sublist (List.singleton_sublist.mpr hp)
  cases p with
  | mark c plain =>
    obtain rfl := List.mem_singleton.mp hmem
    exact hone.dollar (by simp [lexemesOf, lexemes])
  | literal number text closed => cases hone.quotes
  | group number kind body => exact Reference.notMem_digits (by decide) hmem

end Piece

/-! ### Words without a `$` -/

/-- The text of a default without quotes. -/
def bareWords : Option Default → List String
  | some (.bare text) => [text]
  | _ => []

/-- The type and the bare default of a term. -/
def Term.words (t : Term) : List String :=
  match t.content with
  | .scalar type declared => type :: bareWords declared
  | .reference _ => []

/-- The names of a group, and the words of its terms. -/
def Group.words : Group → List String
  | .array parts => parts.flatMap Term.words
  | .object entries => entries.flatMap fun e => e.1 :: e.2.words

/-- The names, the type and the bare default of a node. -/
def Node.words : Node → List String
  | .scalar _ type declared => type :: bareWords declared
  | .array _ _ => []
  | .object _ fields _ => Table.names fields

/-- Words without a `$`. -/
def Clean (words : List String) : Prop := ∀ word ∈ words, '$' ∉ word.toList

theorem clean_ofList {text : List Char} (h : '$' ∉ text) : Clean [String.ofList text] := by
  intro word hword
  rw [List.mem_singleton.mp hword, String.toList_ofList]
  exact h

theorem clean_parseDefault (literals : List (List Char)) {text : List Char} (h : '$' ∉ text) :
    Clean (bareWords (Term.parseDefault literals text)) := by
  unfold Term.parseDefault
  split
  · exact List.forall_mem_nil _
  · exact absurd List.mem_cons_self h
  · exact clean_ofList h

/-- A term of a text without a `$` has none. -/
theorem clean_parseContent (literals : List (List Char)) {text : List Char} (h : '$' ∉ text)
    (optional : Bool) : Clean (Term.words ⟨optional, Term.parseContent literals text⟩) := by
  unfold Term.parseContent
  split
  · exact List.forall_mem_nil _
  · simp only [List.span_eq_takeWhile_dropWhile]
    have htype : '$' ∉ text.takeWhile (· ≠ ':') := by
      intro hmem
      exact h ((List.takeWhile_sublist _).subset hmem)
    have hdefault : '$' ∉ ((text.dropWhile (· ≠ ':')).drop 1).takeWhile (· ≠ ':') := by
      intro hmem
      apply h
      apply (List.dropWhile_sublist fun c => decide (c ≠ ':')).subset
      exact (List.drop_sublist 1 _).subset ((List.takeWhile_sublist _).subset hmem)
    exact List.forall_mem_append.mpr ⟨clean_ofList htype, clean_parseDefault literals hdefault⟩

theorem clean_parse (literals : List (List Char)) {ps : List Piece}
    (h : '$' ∉ flatText (unmark ps).2) : Clean (Term.parse literals (flatText ps)).words := by
  rw [Term.parse_flatText]
  exact clean_parseContent literals h _

/-- A recorded group is clean if its names and its terms are. -/
theorem clean_recorded (literals : List (List Char)) {kind : Bracket} {body : List Piece}
    (hnames : ∀ name ∈ namesOf kind body, '$' ∉ flatText name)
    (hterms : ∀ term ∈ termsOf kind body, Clean (Term.parse literals (flatText term)).words) :
    Clean (Group.parse literals (recorded kind body)).words := by
  rw [Group.parse_recorded]
  cases kind with
  | square =>
    intro word hword
    obtain ⟨t, ht, hword⟩ := List.mem_flatMap.mp hword
    obtain ⟨item, hitem, rfl⟩ := List.mem_map.mp ht
    exact hterms item hitem word hword
  | curly =>
    intro word hword
    obtain ⟨e, he, hword⟩ := List.mem_flatMap.mp hword
    obtain ⟨f, hf, rfl⟩ := List.mem_map.mp he
    rcases List.mem_cons.mp hword with rfl | hword
    · rw [String.toList_ofList]
      exact hnames f.1 (List.mem_map_of_mem hf)
    · exact hterms f.2 (List.mem_map_of_mem hf) word hword

/-! ### Groups without a `$` -/

/-- Bare pieces record clean groups only. -/
theorem clean_entries_of_bare (literals : List (List Char)) : ∀ p : Piece, IsBare [p] →
    ∀ e ∈ p.entries, Clean (Group.parse literals e.1).words := by
  intro p
  induction p using Piece.induct with
  | mark c plain =>
    intro _ e he
    cases he
  | literal number text closed =>
    intro _ e he
    cases he
  | group number kind body ih =>
    intro h e he
    have hbody : IsBare body := by
      refine ⟨?_, dollar_notMem_body h.dollar⟩
      have hquotes := h.quotes
      rwa [quotesOf, quotesOf, List.append_nil] at hquotes
    rw [entries, entriesOf_eq_flatMap] at he
    rcases List.mem_append.mp he with he | he
    · obtain ⟨p, hp, he⟩ := List.mem_flatMap.mp he
      exact ih p hp (hbody.sublist (List.singleton_sublist.mpr hp)) e he
    · rw [List.mem_singleton.mp he]
      apply clean_recorded
      · intro name hname
        exact (hbody.sublist (sublist_of_mem_namesOf hname)).notMem_flatText
      · intro term hterm
        have hsub := (unmark_sublist term).trans (sublist_of_mem_termsOf hterm)
        exact clean_parse literals (hbody.sublist hsub).notMem_flatText

theorem Piece.IsBare.clean_entries (literals : List (List Char)) {ps : List Piece} (h : IsBare ps)
    {p : Piece} (hp : p ∈ ps) {e : List Char × Nat} (he : e ∈ p.entries) :
    Clean (Group.parse literals e.1).words :=
  clean_entries_of_bare literals p (h.sublist (List.singleton_sublist.mpr hp)) e he

/-! ### What is read of a text -/

/-- The literals of pieces are recorded under their numbers, and the pieces have no `$`
otherwise. -/
structure FlatSchema.Quotes (s : FlatSchema) (ps : List Piece) : Prop where
  literals : ∀ q ∈ quotesOf ps, s.literals[q.2]? = some q.1
  dollar : .mark '$' ∉ lexemesOf ps

section
variable {s : FlatSchema} {ps qs body : List Piece} {number : Nat} {kind : Bracket}

theorem FlatSchema.Quotes.sublist (h : s.Quotes qs) (hs : ps.Sublist qs) : s.Quotes ps := by
  constructor
  · intro q hq
    exact h.literals q ((quotesOf_sublist hs).subset hq)
  · intro hmem
    exact h.dollar ((lexemesOf_sublist hs).subset hmem)

theorem FlatSchema.Quotes.inner (h : s.Quotes ps)
    (hps : (unmark ps).2 = [.group number kind body]) : s.Quotes body := by
  have hgroup := h.sublist (unmark_sublist ps)
  rw [hps] at hgroup
  refine ⟨fun q hq => hgroup.literals q ?_, dollar_notMem_body hgroup.dollar⟩
  rw [quotesOf, quotesOf, List.append_nil]
  exact hq

theorem FlatSchema.Quotes.bare (h : s.Quotes ps) (hquotes : quotesOf ps = []) : IsBare ps :=
  ⟨hquotes, h.dollar⟩

/-- A placeholder that is a whole default stands for its literal. -/
theorem FlatSchema.Addressable.parseDefault (hs : s.Addressable) {text : List Char}
    (h : s.literals[number]? = some text) :
    Term.parseDefault s.literals ('$' :: Reference.digits number) =
      some (.literal (String.ofList text)) := by
  have hnumber : number < pow2 64 :=
    Nat.lt_of_lt_of_le (List.getElem?_eq_some_iff.mp h).1 hs.2
  rw [Term.parseDefault, Reference.parse?_digits hnumber, Option.bind_some, h]

/-- A piece is no optional mark, unless it is a character. -/
theorem Piece.mem_unmark {p : Piece} (hp : p ∈ ps) (hmark : p.isMark '?' = false) :
    p ∈ (unmark ps).2 := by
  cases ps with
  | nil => cases hp
  | cons q ps =>
    rw [unmark]
    split
    · next hq =>
      rcases List.mem_cons.mp hp with rfl | hp
      · rw [hmark] at hq
        cases hq
      · exact hp
    · exact hp

/-- What is behind a colon is behind a colon of the flat form. -/
theorem Piece.colon_mem_flatText (h : (splitColon ps).2 ≠ []) : ':' ∈ flatText ps := by
  by_contra hnot
  have hall : ∀ c ∈ flatText ps, decide (c ≠ ':') = true :=
    fun _ hc => decide_eq_true fun e => hnot (e ▸ hc)
  have hrest := (takeWhile_flatText ps).2
  rw [List.dropWhile_eq_nil_iff.mpr hall] at hrest
  exact h (flatText_eq_nil_iff.mp hrest.symm)

/-- A piece of a scalar is among bare pieces, or it is the default. -/
theorem FlatSchema.Quotes.mem_scalar (h : s.Quotes ps) (hq : QuotesDefault ps) {p : Piece}
    (hp : p ∈ ps) (hcolon : p.isMark ':' = false) : (∃ qs, IsBare qs ∧ p ∈ qs) ∨
      ∃ number text closed, p = .literal number text closed ∧
        (splitColon (splitColon ps).2).1 = [.literal number text closed] := by
  obtain ⟨htype, hrest⟩ := splitColon_sublist ps
  obtain ⟨hdefault, hbeyond⟩ := splitColon_sublist (splitColon ps).2
  rcases mem_splitColon hp hcolon with hp | hp
  · exact .inl ⟨_, (h.sublist htype).bare hq.type, hp⟩
  · rcases mem_splitColon hp hcolon with hp | hp
    · rcases hq.declared with hnone | ⟨number, text, closed, hliteral⟩
      · exact .inl ⟨_, (h.sublist (hdefault.trans hrest)).bare hnone, hp⟩
      · rw [hliteral] at hp
        exact .inr ⟨number, text, closed, List.mem_singleton.mp hp, hliteral⟩
    · exact .inl ⟨_, (h.sublist (hbeyond.trans hrest)).bare hq.rest, hp⟩

/-- A scalar whose default is a literal has the literal as its default. -/
theorem FlatSchema.Quotes.parseDefault_literal (h : s.Quotes ps) (hs : s.Addressable)
    {text : List Char} {closed : '"' ∉ text}
    (hdefault : (splitColon (splitColon ps).2).1 = [.literal number text closed]) :
    Term.parseDefault s.literals (flatText (splitColon (splitColon ps).2).1) =
      some (.literal (String.ofList text)) := by
  have hsub := (splitColon_sublist (splitColon ps).2).1.trans (splitColon_sublist ps).2
  have hquotes := (h.sublist hsub).literals
  rw [hdefault] at hquotes
  have hrecorded : s.literals[number]? = some text := hquotes (text, number) List.mem_cons_self
  rw [hdefault, flatText_cons, flatText_nil, List.append_nil]
  exact hs.parseDefault hrecorded

theorem FlatSchema.Quotes.parseContent_literal (h : s.Quotes ps) (hs : s.Addressable)
    {text : List Char} {closed : '"' ∉ text}
    (hdefault : (splitColon (splitColon ps).2).1 = [.literal number text closed]) :
    Term.parseContent s.literals (flatText ps) =
      .scalar (String.ofList (flatText (splitColon ps).1))
        (some (.literal (String.ofList text))) := by
  have hrest : (splitColon ps).2 ≠ [] := by
    intro hnil
    rw [hnil] at hdefault
    cases hdefault
  have hcolon := colon_mem_flatText hrest
  have hnumber : ¬ IsNumber (flatText ps) := by
    intro hnumber
    exact absurd (hnumber.2 ':' hcolon) (by decide)
  rw [Term.parseContent_flatText _ (Reference.parse?_eq_none hnumber),
    h.parseDefault_literal hs hdefault]

/-- A scalar has no `$` in its type, nor in its default unless that is a literal. -/
theorem FlatSchema.Quotes.clean_scalar (h : s.Quotes ps) (hs : s.Addressable)
    (hq : QuotesDefault ps) (optional : Bool) :
    Clean (Term.words ⟨optional, Term.parseContent s.literals (flatText ps)⟩) := by
  obtain ⟨htype, hrest⟩ := splitColon_sublist ps
  have htype := ((h.sublist htype).bare hq.type).notMem_flatText
  rcases hq.declared with hnone | ⟨number, text, closed, hdefault⟩
  · cases hread : Reference.parse? (flatText ps) with
    | some index =>
      rw [Term.parseContent, hread]
      exact List.forall_mem_nil _
    | none =>
      have hsub := (splitColon_sublist (splitColon ps).2).1.trans hrest
      have hdefault := ((h.sublist hsub).bare hnone).notMem_flatText
      rw [Term.parseContent_flatText _ hread]
      exact List.forall_mem_append.mpr
        ⟨clean_ofList htype, clean_parseDefault s.literals hdefault⟩
  · rw [h.parseContent_literal hs hdefault]
    exact clean_ofList htype

/-- **What is read of a text has no `$`**, if its literals are whole defaults: neither a
term nor a group that is recorded below it. -/
theorem groups_clean (hs : s.Addressable) (ps : List Piece) : s.Quotes ps →
    (outline ps).QuotesDefaults → Clean (Term.parse s.literals (flatText ps)).words ∧
      ∀ p ∈ ps, ∀ e ∈ p.entries, Clean (Group.parse s.literals e.1).words := by
  induction ps using term_induct with
  | h ps ih =>
    intro h hq
    rcases group_or_scalar ps with ⟨number, kind, body, hps⟩ | hps
    · obtain ⟨hnames, hterms⟩ := Outline.quotesDefaults_group hps hq
      have hbody := h.inner hps
      have hbare : ∀ name ∈ namesOf kind body, IsBare name := fun name hname =>
        (hbody.sublist (sublist_of_mem_namesOf hname)).bare (hnames name hname)
      have ih := fun term hterm => ih number kind body hps term hterm
        (hbody.sublist (sublist_of_mem_termsOf hterm)) (hterms term hterm)
      constructor
      · apply clean_parse
        rw [hps, flatText_cons, flatText_nil, List.append_nil]
        exact Reference.notMem_digits (by decide)
      · intro p hp e he
        have hgroup := mem_unmark hp (isMark_eq_false_of_mem_entries he _)
        rw [hps] at hgroup
        rw [List.mem_singleton.mp hgroup, entries, entriesOf_eq_flatMap] at he
        rcases List.mem_append.mp he with he | he
        · -- the group is in a name, or below a term
          obtain ⟨p, hp, he⟩ := List.mem_flatMap.mp he
          have hmark := isMark_eq_false_of_mem_entries he
          rcases mem_names_or_terms hp (hmark _) (hmark _) with
            ⟨name, hname, hp⟩ | ⟨term, hterm, hp⟩
          · exact (hbare name hname).clean_entries s.literals hp he
          · exact (ih term hterm).2 p hp e he
        · rw [List.mem_singleton.mp he]
          exact clean_recorded s.literals (fun name hname => (hbare name hname).notMem_flatText)
            fun term hterm => (ih term hterm).1
    · have hscalar := Outline.quotesDefaults_scalar hps hq
      have h := h.sublist (unmark_sublist ps)
      constructor
      · rw [Term.parse_flatText]
        exact h.clean_scalar hs hscalar _
      · intro p hp e he
        have hmark := isMark_eq_false_of_mem_entries he
        rcases h.mem_scalar hscalar (mem_unmark hp (hmark _)) (hmark _) with ⟨qs, hbare, hp⟩ |
          ⟨number, text, closed, rfl, -⟩
        · exact hbare.clean_entries s.literals hp he
        · cases he

/-- **The literals below a term are defaults of nodes**, once its scalars are placed. -/
theorem literals_placed (hs : s.Addressable) {nodes : List Node} (ps : List Piece) : ∀ bound,
    s.Records bound ps → s.Quotes ps → (outline ps).QuotesDefaults →
    Placed s nodes bound (Term.parse s.literals (flatText ps)) → ∀ p ∈ ps, ∀ q ∈ p.quotes,
    ∃ optional type, .scalar optional type (some (.literal (String.ofList q.1))) ∈ nodes := by
  induction ps using term_induct with
  | h ps ih =>
    intro bound hrecords h hq hplaced p hp q hmem
    have hmark := isMark_eq_false_of_mem_quotes hmem
    have hp := mem_unmark hp (hmark _)
    rcases group_or_scalar ps with ⟨number, kind, body, hps⟩ | hps
    · obtain ⟨hnames, hterms⟩ := Outline.quotesDefaults_group hps hq
      obtain ⟨hparse, hgroup, hlt, hbelow⟩ := hrecords.reads hs hps
      have hbody := h.inner hps
      rw [hparse, Placed, meetsScalars_reference, hgroup, Group.terms_recorded] at hplaced
      have hplaced := List.forall_mem_map.mp (hplaced hlt)
      rw [hps] at hp
      rw [List.mem_singleton.mp hp, quotes, quotesOf_eq_flatMap] at hmem
      obtain ⟨p, hp, hmem⟩ := List.mem_flatMap.mp hmem
      have hmark := isMark_eq_false_of_mem_quotes hmem
      rcases mem_names_or_terms hp (hmark _) (hmark _) with ⟨name, hname, hp⟩ | ⟨term, hterm, hp⟩
      · -- there is no literal in a name
        exact absurd hmem (notMem_quotes (hnames name hname) hp)
      · exact ih number kind body hps term hterm number (hbelow term hterm)
          (hbody.sublist (sublist_of_mem_termsOf hterm)) (hterms term hterm)
          (hplaced term hterm) p hp q hmem
    · have hscalar := Outline.quotesDefaults_scalar hps hq
      have h := h.sublist (unmark_sublist ps)
      rcases h.mem_scalar hscalar hp (hmark _) with ⟨qs, hbare, hp⟩ |
        ⟨number, text, closed, rfl, hdefault⟩
      · exact absurd hmem (notMem_quotes hbare.quotes hp)
      · obtain rfl := List.mem_singleton.mp hmem
        rw [Term.parse_flatText, h.parseContent_literal hs hdefault, Placed,
          meetsScalars_scalar] at hplaced
        exact ⟨_, _, hplaced⟩

end

/-! ### Whole texts -/

theorem clean_of_mem_terms {g : Group} (h : Clean g.words) {t : Term} (ht : t ∈ g.terms) :
    Clean t.words := by
  intro word hword
  cases g with
  | array parts => exact h word (List.mem_flatMap.mpr ⟨t, ht, hword⟩)
  | object entries =>
    obtain ⟨e, he, rfl⟩ := List.mem_map.mp ht
    exact h word (List.mem_flatMap.mpr ⟨e, he, List.mem_cons_of_mem _ hword⟩)

theorem clean_of_mem_names {entries : List (String × Term)} (h : Clean (Group.object entries).words)
    {name : String} (hname : name ∈ Table.names entries) : '$' ∉ name.toList := by
  obtain ⟨e, he, rfl⟩ := List.mem_map.mp hname
  exact h e.1 (List.mem_flatMap.mpr ⟨e, he, List.mem_cons_self⟩)

section
variable {s : FlatSchema}

/-- Clean terms meet clean scalars only. -/
theorem meetsScalars_clean (hgroups : ∀ index, Clean (s.group index).words) (bound : Nat) :
    ∀ t : Term, Clean t.words →
      MeetsScalars (fun _ type declared => Clean (type :: bareWords declared)) s bound t := by
  induction bound using Nat.strongRecOn with
  | _ bound ih =>
    rintro ⟨optional, index | ⟨type, declared⟩⟩ h
    · rw [meetsScalars_reference]
      intro hlt t ht
      exact ih index hlt t (clean_of_mem_terms (hgroups index) ht)
    · rw [meetsScalars_scalar]
      exact h

/-- The nodes of an arena have no `$` that the terms and the groups do not have. -/
theorem words_clean (hgroups : ∀ index, Clean (s.group index).words) (hroot : Clean s.root.words)
    {a : Arena} (h : compile s = .ok a) : ∀ node ∈ a.nodes, Clean node.words := by
  intro node hnode
  have hmeets := meetsScalars_clean hgroups s.lookups.length s.root hroot
  obtain ⟨id, hid⟩ := List.mem_iff_getElem?.mp hnode
  have hfits := fits_of_compile h hmeets hid
  cases node with
  | scalar optional type declared =>
    cases hfits with
    | scalar hclean => exact hclean
  | array optional parts => exact List.forall_mem_nil _
  | object optional fields wildcard =>
    obtain ⟨index, entries, hgroup, hnames⟩ := (keeps_of_compile h).1 _ hnode
    have hclean := hgroups index
    rw [hgroup] at hclean
    intro name hname
    exact clean_of_mem_names hclean (hnames name hname)

/-- What is recorded nowhere is an empty object. -/
theorem clean_group {text : String} {ps : List Piece} (hnests : s.Nests text ps)
    (h : ∀ p ∈ ps, ∀ e ∈ p.entries, Clean (Group.parse s.literals e.1).words) (index : Nat) :
    Clean (s.group index).words := by
  rw [FlatSchema.group, List.getD_eq_getElem?_getD]
  cases hbody : s.lookups[index]? with
  | none => exact List.forall_mem_nil _
  | some body =>
    have hentry : (body, index) ∈ entriesOf ps := by
      rw [hnests.entries]
      exact List.mk_mem_zipIdx_iff_getElem?.mpr hbody
    rw [entriesOf_eq_flatMap] at hentry
    obtain ⟨p, hp, he⟩ := List.mem_flatMap.mp hentry
    exact h p hp (body, index) he

end

/-- **Literals become defaults, and leave no placeholder**, where they are written as whole
defaults of scalars and the text has no `$` besides.  Every literal of the text then is the
default of a node, and no name of a field, no type and no bare default has a `$`. -/
theorem literals_become_defaults {text : String} {s : FlatSchema} {a : Arena}
    (hflatten : flatten text = .ok s) (hcompile : compile s = .ok a)
    (hlength : text.length ≤ pow2 64) : (∃ ps, s.Nests text ps) ∧ ∀ ps, s.Nests text ps →
      .mark '$' ∉ lexemesOf ps → (outline ps).QuotesDefaults →
      (∀ q ∈ quotesOf ps, ∃ optional type,
        .scalar optional type (some (.literal (String.ofList q.1))) ∈ a.nodes) ∧
      ∀ node ∈ a.nodes, ∀ word ∈ node.words, '$' ∉ word.toList := by
  have hs := addressable_of_flatten hflatten hlength
  refine ⟨exists_nests hflatten, fun ps hnests hdollar hq => ?_⟩
  have hroot : s.root = Term.parse s.literals (flatText ps) := by
    rw [FlatSchema.root, hnests.flat]
  have hquotes : s.Quotes ps := by
    refine ⟨fun q hq => ?_, hdollar⟩
    rw [hnests.quotes] at hq
    exact List.mk_mem_zipIdx_iff_getElem?.mp hq
  obtain ⟨hterm, hgroups⟩ := groups_clean hs ps hquotes hq
  constructor
  · intro q hmem
    rw [quotesOf_eq_flatMap] at hmem
    obtain ⟨p, hp, hmem⟩ := List.mem_flatMap.mp hmem
    have hplaced := (keeps_of_compile hcompile).2
    rw [hroot] at hplaced
    exact literals_placed hs ps _ hnests.records hquotes hq hplaced p hp q hmem
  · exact words_clean (clean_group hnests hgroups) (hroot ▸ hterm) hcompile

/-- The literals of a name that is written twice are both defaults of nodes. -/
theorem literals_become_defaults_repeated : ∃ s a,
    flatten "\x7ba:s:\"x, y\",a:[s:\"z\"]\x7d" = .ok s ∧ compile s = .ok a ∧
    (∃ optional type, .scalar optional type (some (.literal "x, y")) ∈ a.nodes) ∧
    (∃ optional type, .scalar optional type (some (.literal "z")) ∈ a.nodes) ∧
    ∀ node ∈ a.nodes, ∀ word ∈ node.words, '$' ∉ word.toList := by
  let shadowed : List Piece := [.mark 's' (by decide), .mark ':' (by decide),
    .literal 0 "x, y".toList (by decide)]
  let part : List Piece := [.mark 's' (by decide), .mark ':' (by decide),
    .literal 1 "z".toList (by decide)]
  let name : List Piece := [.mark 'a' (by decide)]
  let colon : Piece := .mark ':' (by decide)
  let body : List Piece := name ++ colon :: (shadowed ++ .mark ',' (by decide) ::
    (name ++ [colon, .group 0 .square part]))
  let ps : List Piece := [.group 1 .curly body]
  let s : FlatSchema := ⟨"1".toList, ["[s:$1]".toList, "\x7ba:s:$0,a:0\x7d".toList],
    ["x, y".toList, "z".toList]⟩
  let a : Arena := ⟨[.scalar false "s" (some (.literal "x, y")),
    .scalar false "s" (some (.literal "z")), .array false [1], .object false [("a", 2)] none], 3⟩
  have hflatten : flatten "\x7ba:s:\"x, y\",a:[s:\"z\"]\x7d" = .ok s := by decide +kernel
  have hcompile : compile s = .ok a := by decide +kernel
  have hnests : s.Nests "\x7ba:s:\"x, y\",a:[s:\"z\"]\x7d" ps := by
    refine ⟨?_, by decide +kernel, by decide +kernel, by decide +kernel⟩
    show Spells _ ['{', 'a', ':', 's', ':', '"', 'x', ',', ' ', 'y', '"', ',', 'a', ':', '[', 's',
      ':', '"', 'z', '"', ']', '}']
    repeat first
      | refine .mark _ ?_
      | refine .literal "x, y".toList ?_
      | refine .literal "z".toList ?_
    exact .nil
  have hshadowed : outline shadowed = .scalar false shadowed := outline_scalar nofun
  have hpart : outline part = .scalar false part := outline_scalar nofun
  have harray : outline [.group 0 .square part] = .array false 0 [outline part] :=
    outline_square (show (unmark _).2 = [.group 0 .square part] from rfl)
  have hps : outline ps = .object false 1
      [(name, outline shadowed), (name, outline [.group 0 .square part])] :=
    outline_curly (show (unmark _).2 = [.group 1 .curly body] from rfl)
  rw [harray, hshadowed, hpart] at hps
  have hq : (outline ps).QuotesDefaults := by
    rw [hps]
    have hone : QuotesDefault shadowed := ⟨rfl, .inr ⟨0, "x, y".toList, by decide, rfl⟩, rfl⟩
    have hother : QuotesDefault part := ⟨rfl, .inr ⟨1, "z".toList, by decide, rfl⟩, rfl⟩
    refine .object ?_ ?_
    · simp only [List.forall_mem_cons]
      exact ⟨rfl, rfl, List.forall_mem_nil _⟩
    · simp only [List.forall_mem_cons]
      exact ⟨.scalar hone, .array (List.forall_mem_singleton.mpr (.scalar hother)),
        List.forall_mem_nil _⟩
  have hdollar : .mark '$' ∉ lexemesOf ps := by decide +kernel
  obtain ⟨hplaced, hclean⟩ :=
    (literals_become_defaults hflatten hcompile (by decide)).2 ps hnests hdollar hq
  have hquotes : quotesOf ps = [("x, y".toList, 0), ("z".toList, 1)] := rfl
  rw [hquotes, List.forall_mem_cons, List.forall_mem_singleton] at hplaced
  exact ⟨s, a, hflatten, hcompile, hplaced.1, hplaced.2, hclean⟩

/-- A literal before the first colon of a term leaves its placeholder as a type. -/
theorem literal_as_type : ∃ s a, flatten "\x7ba:\"x\"\x7d" = .ok s ∧ s.literals = ["x".toList] ∧
    compile s = .ok a ∧ a.nodes = [.scalar false "$0" none, .object false [("a", 0)] none] := by
  refine ⟨⟨"0".toList, ["\x7ba:$0\x7d".toList], ["x".toList]⟩,
    ⟨[.scalar false "$0" none, .object false [("a", 0)] none], 1⟩, ?_, rfl, ?_, rfl⟩
  · decide +kernel
  · decide +kernel

end TerseSchema
