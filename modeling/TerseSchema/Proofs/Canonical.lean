import TerseSchema.Proofs.Pieces

/-!
# Flat forms are canonical

The flat form of a text holds no white space, no quote and no bracket, but for the two
brackets around each entry.  The quotes of the text tell what is in its tables: split at
them, every other piece is a literal, and the brackets that open an entry are in the other
pieces.  What is flat stays as it is when it is flattened again, and an entry becomes the
only one.

## Main definitions

* `outsideLiterals`, `literalTexts` — a text split at its quotes.
* `IsEntry` — a group without white space, quotes and further brackets.

## Main results

* `Spells.literalTexts_eq`, `Spells.filter_outsideLiterals` — the lexemes of a text and the
  pieces between its quotes.
* `flatten_plain`, `flatten_entry` — flattening what is flat.
* `flatten_canonical` — **what flattening makes of a text is canonical, and a fixed point.**
-/

namespace TerseSchema

open Piece

/-! ### A text split at its quotes -/

/-- The first element of a list, the third, and so on. -/
def everyOther {α : Type} : List α → List α
  | [] => []
  | [a] => [a]
  | a :: _ :: l => a :: everyOther l

theorem everyOther_cons {α : Type} (a : α) (l : List α) :
    everyOther (a :: l) = a :: everyOther l.tail := by
  cases l <;> rfl

/-- The characters of a text outside its literals: between its quotes, every other piece. -/
def outsideLiterals (text : List Char) : List Char := (everyOther (text.splitOn '"')).flatten

/-- The literals of a text: between its quotes, the other pieces. -/
def literalTexts (text : List Char) : List (List Char) := everyOther (text.splitOn '"').tail

theorem splitOn_quote_cons {c : Char} (hc : c ≠ '"') (text : List Char) : ∃ first pieces,
    text.splitOn '"' = first :: pieces ∧ (c :: text).splitOn '"' = (c :: first) :: pieces := by
  obtain ⟨first, pieces, hsplit⟩ := List.exists_cons_of_ne_nil (List.splitOn_ne_nil '"' text)
  refine ⟨first, pieces, hsplit, ?_⟩
  rw [List.splitOn_cons_eq_if_modifyHead, if_neg (by simpa using hc), hsplit, List.modifyHead_cons]

theorem splitOn_quote_literal {body : List Char} (hbody : '"' ∉ body) (text : List Char) :
    ('"' :: (body ++ '"' :: text)).splitOn '"' = [] :: body :: text.splitOn '"' := by
  rw [List.splitOn_cons_eq_if_modifyHead, if_pos (by simp),
    List.splitOn_append_cons_self_of_not_mem hbody]

theorem outsideLiterals_cons {c : Char} (hc : c ≠ '"') (text : List Char) :
    outsideLiterals (c :: text) = c :: outsideLiterals text := by
  obtain ⟨first, pieces, hsplit, hcons⟩ := splitOn_quote_cons hc text
  unfold outsideLiterals
  rw [hsplit, hcons, everyOther_cons, everyOther_cons, List.flatten_cons, List.flatten_cons,
    List.cons_append]

theorem literalTexts_cons {c : Char} (hc : c ≠ '"') (text : List Char) :
    literalTexts (c :: text) = literalTexts text := by
  obtain ⟨first, pieces, hsplit, hcons⟩ := splitOn_quote_cons hc text
  unfold literalTexts
  rw [hsplit, hcons, List.tail_cons, List.tail_cons]

theorem outsideLiterals_literal {body : List Char} (hbody : '"' ∉ body) (text : List Char) :
    outsideLiterals ('"' :: (body ++ '"' :: text)) = outsideLiterals text := by
  unfold outsideLiterals
  rw [splitOn_quote_literal hbody]
  rfl

theorem literalTexts_literal {body : List Char} (hbody : '"' ∉ body) (text : List Char) :
    literalTexts ('"' :: (body ++ '"' :: text)) = body :: literalTexts text := by
  unfold literalTexts
  rw [splitOn_quote_literal hbody, List.tail_cons, everyOther_cons]

/-! ### The lexemes of a text -/

/-- The character of a mark. -/
def Lexeme.mark? : Lexeme → Option Char
  | .mark c => some c
  | .literal _ => none

section
variable {ls : List Lexeme} {text : List Char} (h : Spells ls text)
  (hl : ∀ l ∈ ls, l.IsLegible)
include h hl

/-- **Between the quotes stand the literals.** -/
theorem Spells.literalTexts_eq : literalTexts text = ls.filterMap Lexeme.literal? := by
  induction h with
  | nil => rfl
  | @blank ls text c hc _ ih =>
    rw [literalTexts_cons (ne_quote_of_isBlank hc)]
    exact ih hl
  | @mark ls text c _ ih =>
    obtain ⟨hc, hrest⟩ := List.forall_mem_cons.mp hl
    rw [literalTexts_cons hc.1]
    exact ih hrest
  | @literal ls text body _ ih =>
    -- its two quotes make the literal a piece of its own
    obtain ⟨hbody, hrest⟩ := List.forall_mem_cons.mp hl
    rw [literalTexts_literal hbody, ih hrest]
    rfl

/-- **Outside the literals stand the marks**, and white space. -/
theorem Spells.filter_outsideLiterals :
    (outsideLiterals text).filter (fun c => !isBlank c) = ls.filterMap Lexeme.mark? := by
  induction h with
  | nil => rfl
  | @blank ls text c hc _ ih =>
    rw [outsideLiterals_cons (ne_quote_of_isBlank hc), List.filter_cons_of_neg (by simp [hc])]
    exact ih hl
  | @mark ls text c _ ih =>
    obtain ⟨hc, hrest⟩ := List.forall_mem_cons.mp hl
    rw [outsideLiterals_cons hc.1, List.filter_cons_of_pos (by simp [hc.2]), ih hrest]
    rfl
  | @literal ls text body _ ih =>
    obtain ⟨hbody, hrest⟩ := List.forall_mem_cons.mp hl
    rw [outsideLiterals_literal hbody]
    exact ih hrest

end

/-- Whether a character opens a group. -/
def isOpener (c : Char) : Bool := c = '[' || c = '{'

theorem isOpener_opener (kind : Bracket) : isOpener kind.opener = true := by
  cases kind <;> rfl

theorem isOpener_closer (kind : Bracket) : isOpener kind.closer = false := by
  cases kind <;> rfl

/-- White space opens no group. -/
theorem countP_isOpener (text : List Char) :
    text.countP isOpener = (text.filter fun c => !isBlank c).countP isOpener := by
  rw [List.countP_filter]
  apply List.countP_congr
  intro c _
  constructor
  · intro hc
    have hblank : isBlank c = false := by
      simp only [isOpener, Bool.or_eq_true, decide_eq_true_eq] at hc
      rcases hc with rfl | rfl
      · decide
      · decide
    rw [hc, hblank]
    rfl
  · intro hc
    exact (Bool.and_eq_true_iff.mp hc).1

/-! ### The pieces of a text -/

/-- Pieces can be told from one another. -/
theorem legible_lexemes (p : Piece) : ∀ l ∈ p.lexemes, l.IsLegible := by
  induction p using Piece.induct with
  | mark c plain => exact List.forall_mem_singleton.mpr ⟨plain.quote, plain.blank⟩
  | literal number text closed => exact List.forall_mem_singleton.mpr closed
  | group number kind body ih =>
    refine List.forall_mem_cons.mpr ⟨?_, List.forall_mem_append.mpr ⟨?_, ?_⟩⟩
    · cases kind <;> exact ⟨by decide, by decide⟩
    · rw [lexemesOf_eq_flatMap]
      exact List.forall_mem_flatMap.mpr ih
    · refine List.forall_mem_singleton.mpr ?_
      cases kind <;> exact ⟨by decide, by decide⟩

/-- The literals of a piece, in order. -/
theorem literals_lexemes (p : Piece) :
    p.lexemes.filterMap Lexeme.literal? = p.quotes.map Prod.fst := by
  induction p using Piece.induct with
  | mark c plain => rfl
  | literal number text closed => rfl
  | group number kind body ih =>
    have hbody : (lexemesOf body).filterMap Lexeme.literal? = (quotesOf body).map Prod.fst := by
      rw [lexemesOf_eq_flatMap, quotesOf_eq_flatMap, List.filterMap_flatMap, List.map_flatMap]
      exact List.flatMap_congr ih
    have hgroup : (Piece.group number kind body).lexemes.filterMap Lexeme.literal? =
        (lexemesOf body ++ [Lexeme.mark kind.closer]).filterMap Lexeme.literal? := rfl
    rw [hgroup, Piece.quotes, ← hbody, List.filterMap_append]
    exact List.append_nil _

theorem literals_lexemesOf (ps : List Piece) :
    (lexemesOf ps).filterMap Lexeme.literal? = (quotesOf ps).map Prod.fst := by
  rw [lexemesOf_eq_flatMap, quotesOf_eq_flatMap, List.filterMap_flatMap, List.map_flatMap]
  exact List.flatMap_congr fun p _ => literals_lexemes p

/-- The number of marks that open a group. -/
def openings (ls : List Lexeme) : Nat := (ls.filterMap Lexeme.mark?).countP isOpener

theorem openings_append (ls ms : List Lexeme) :
    openings (ls ++ ms) = openings ls + openings ms := by
  rw [openings, List.filterMap_append, List.countP_append]
  rfl

theorem openings_mark (c : Char) : openings [.mark c] = if isOpener c then 1 else 0 := by
  simp [openings, Lexeme.mark?, List.countP_singleton]

theorem openings_of_forall {ps : List Piece}
    (h : ∀ p ∈ ps, openings p.lexemes = p.entries.length) :
    openings (lexemesOf ps) = (entriesOf ps).length := by
  induction ps with
  | nil => rfl
  | cons p ps ih =>
    obtain ⟨hp, hps⟩ := List.forall_mem_cons.mp h
    rw [lexemesOf, entriesOf, openings_append, List.length_append, hp, ih hps]

/-- **Every group is opened once, and recorded once.** -/
theorem openings_lexemes (p : Piece) : openings p.lexemes = p.entries.length := by
  induction p using Piece.induct with
  | mark c plain =>
    have hc : isOpener c = false := by
      have hbracket := plain.bracket
      simp only [brackets, List.mem_cons, List.not_mem_nil, or_false, not_or] at hbracket
      simp [isOpener, hbracket]
    rw [Piece.lexemes, openings_mark, hc]
    rfl
  | literal number text closed => rfl
  | group number kind body ih =>
    -- of the two brackets of the group, the first one counts
    have hgroup : (Piece.group number kind body).lexemes =
        [.mark kind.opener] ++ (lexemesOf body ++ [.mark kind.closer]) := rfl
    rw [hgroup, openings_append, openings_append, openings_mark, openings_mark,
      isOpener_opener, isOpener_closer, openings_of_forall ih, Piece.entries, List.length_append]
    simp
    omega

/-! ### What is left of pieces -/

theorem isPlain_of_isDigit {c : Char} (h : c.isDigit = true) : IsPlain c where
  quote := by
    rintro rfl
    exact absurd h (by decide)
  blank := isBlank_of_isDigit h
  bracket := by
    intro hbracket
    simp only [brackets, List.mem_cons, List.not_mem_nil, or_false] at hbracket
    rcases hbracket with rfl | rfl | rfl | rfl <;> exact absurd h (by decide)

/-- **Only plain characters are left of pieces.** -/
theorem isPlain_of_mem_flatText {ps : List Piece} {c : Char} (h : c ∈ flatText ps) :
    IsPlain c := by
  obtain ⟨p, -, hc⟩ := List.mem_flatMap.mp h
  cases p with
  | mark d plain =>
    obtain rfl := List.mem_singleton.mp hc
    exact plain
  | literal number text closed =>
    rcases List.mem_cons.mp hc with rfl | hc
    · decide
    · exact isPlain_of_isDigit (Reference.isDigit_of_mem hc)
  | group number kind body => exact isPlain_of_isDigit (Reference.isDigit_of_mem hc)

/-- A group without white space, quotes and further brackets. -/
def IsEntry (entry : List Char) : Prop := ∃ (kind : Bracket) (body : List Char),
  entry = kind.opener :: (body ++ [kind.closer]) ∧ ∀ c ∈ body, IsPlain c

/-- What is recorded of a piece are groups without further brackets. -/
theorem isEntry_of_mem_entries (p : Piece) : ∀ e ∈ p.entries, IsEntry e.1 := by
  induction p using Piece.induct with
  | mark c plain => exact List.forall_mem_nil _
  | literal number text closed => exact List.forall_mem_nil _
  | group number kind body ih =>
    intro e he
    rw [Piece.entries, List.mem_append] at he
    rcases he with he | he
    · rw [entriesOf_eq_flatMap] at he
      obtain ⟨p, hp, he⟩ := List.mem_flatMap.mp he
      exact ih p hp e he
    · obtain rfl := List.mem_singleton.mp he
      exact ⟨kind, flatText body, rfl, fun c hc => isPlain_of_mem_flatText hc⟩

/-! ### Flattening what is flat -/

theorem legible_plain {text : List Char} (h : ∀ c ∈ text, IsPlain c) :
    ∀ l ∈ spelled text, l.IsLegible :=
  legible_spelled fun c hc => ⟨(h c hc).quote, (h c hc).blank⟩

/-- **Plain text is flat.** -/
theorem flatten_plain {text : List Char} (h : ∀ c ∈ text, IsPlain c) :
    flatten (String.ofList text) = .ok ⟨text, [], []⟩ := by
  have hspells : Spells (spelled text) (String.ofList text).toList := by
    rw [String.toList_ofList]
    exact spells_spelled text
  exact flatten_of_writes hspells (legible_plain h)
    (writes_spelled text {} fun c hc => (h c hc).bracket)

/-- **An entry alone becomes the only one.** -/
theorem flatten_entry {entry : List Char} (h : IsEntry entry) :
    flatten (String.ofList entry) = .ok ⟨['0'], [entry], []⟩ := by
  obtain ⟨kind, body, rfl, hbody⟩ := h
  have hspells : Spells (spelled (kind.opener :: (body ++ [kind.closer])))
      (String.ofList (kind.opener :: (body ++ [kind.closer]))).toList := by
    rw [String.toList_ofList]
    exact spells_spelled _
  have hlegible : ∀ l ∈ spelled (kind.opener :: (body ++ [kind.closer])), l.IsLegible := by
    apply legible_spelled
    intro c hc
    rcases List.mem_cons.mp hc with rfl | hc
    · cases kind <;> decide
    · rcases List.mem_append.mp hc with hc | hc
      · exact ⟨(hbody c hc).quote, (hbody c hc).blank⟩
      · obtain rfl := List.mem_singleton.mp hc
        cases kind <;> decide
  have hwrites := writes_group kind {} fun offset =>
    writes_spelled body (({} : Assembly).opened kind offset) fun c hc => (hbody c hc).bracket
  have hlexemes : spelled (kind.opener :: (body ++ [kind.closer])) =
      .mark kind.opener :: spelled body ++ [.mark kind.closer] := by
    simp [spelled]
  rw [hlexemes] at hspells hlegible
  exact flatten_of_writes hspells hlegible hwrites

/-! ### Whole texts -/

/-- **What flattening makes of a text is canonical, and a fixed point.**  The root has no
white space, no quote and no bracket; an entry has none either between its own brackets.
There are as many entries as brackets that open a group outside literals, and the literals
are those of the text, in order.  Flattening the root leaves it as it is, and flattening an
entry makes it the only one. -/
theorem flatten_canonical {text : String} {s : FlatSchema} (h : flatten text = .ok s) :
    (∀ c ∈ s.flat, IsPlain c) ∧
    (∀ entry ∈ s.lookups, IsEntry entry) ∧
    s.lookups.length = (outsideLiterals text.toList).countP isOpener ∧
    s.literals = literalTexts text.toList ∧
    2 * s.literals.length = text.toList.count '"' ∧
    flatten (String.ofList s.flat) = .ok ⟨s.flat, [], []⟩ ∧
    ∀ entry ∈ s.lookups, flatten (String.ofList entry) = .ok ⟨['0'], [entry], []⟩ := by
  obtain ⟨ps, hspells, hflat, hentries, hquotes⟩ := exists_nests h
  have hlegible : ∀ l ∈ lexemesOf ps, l.IsLegible := by
    rw [lexemesOf_eq_flatMap]
    exact List.forall_mem_flatMap.mpr fun p _ => legible_lexemes p
  have hplain : ∀ c ∈ s.flat, IsPlain c := by
    rw [hflat]
    exact fun c hc => isPlain_of_mem_flatText hc
  -- the tables hold the groups and the literals of the pieces, in the order of their numbers
  have hentry : ∀ entry ∈ s.lookups, IsEntry entry := by
    have hall : ∀ e ∈ s.lookups.zipIdx, IsEntry e.1 := by
      rw [← hentries, entriesOf_eq_flatMap]
      exact List.forall_mem_flatMap.mpr fun p _ => isEntry_of_mem_entries p
    rw [← List.zipIdx_map_fst 0 s.lookups]
    exact List.forall_mem_map.mpr hall
  have hliterals : (lexemesOf ps).filterMap Lexeme.literal? = s.literals := by
    rw [literals_lexemesOf, hquotes, List.zipIdx_map_fst]
  refine ⟨hplain, hentry, ?_, ?_, ?_, flatten_plain hplain,
    fun entry he => flatten_entry (hentry entry he)⟩
  · have hlength := openings_of_forall fun p (_ : p ∈ ps) => openings_lexemes p
    rw [hentries, List.length_zipIdx] at hlength
    rw [countP_isOpener, hspells.filter_outsideLiterals hlegible, ← hlength]
    rfl
  · rw [hspells.literalTexts_eq hlegible, hliterals]
  · rw [hspells.count_quote_eq hlegible, hliterals]

/-- Two groups, one of them with a literal that holds a bracket. -/
theorem flatten_canonical_nestedText : ∃ s,
    flatten "\x7b a : [s, \"x ]\"], b:n \x7d" = .ok s ∧ s.lookups.length = 2 ∧
      s.literals = ["x ]".toList] ∧ flatten (String.ofList s.flat) = .ok ⟨s.flat, [], []⟩ ∧
      flatten "[s,$0]" = .ok ⟨['0'], ["[s,$0]".toList], []⟩ := by
  have hs : flatten "\x7b a : [s, \"x ]\"], b:n \x7d" =
      .ok ⟨"1".toList, ["[s,$0]".toList, "\x7ba:0,b:n\x7d".toList], ["x ]".toList]⟩ := by
    decide +kernel
  obtain ⟨-, -, hlookups, hliterals, -, hroot, hentries⟩ := flatten_canonical hs
  exact ⟨_, hs, hlookups.trans (by decide +kernel), hliterals.trans (by decide +kernel), hroot,
    hentries _ List.mem_cons_self⟩

end TerseSchema
