import Mathlib.Data.List.Flatten
import TerseSchema.Proofs.Literals

/-!
# The pieces of a text

A text that can be flattened consists of characters, literals and groups, and a group
of pieces again.  The flat form has a number for every literal and every group; kept
with the pieces, the numbers say where each entry of the two tables was written.

## Main definitions

* `Piece` — a character, or a literal or a group with its number.
* `Piece.text`, `Piece.lexemes` — what is left of a piece in the flat form, and how it
  is written.
* `Piece.entries`, `Piece.quotes` — the groups and the literals of a piece, as they are
  recorded.
* `FlatSchema.Nests` — a flat schema comes from the pieces of a text.

## Main results

* `Nesting.exists_step`, `Nesting.exists_run` — pieces are read along with the text.
* `exists_nests` — **a flat schema comes from the pieces of its text.**
-/

namespace TerseSchema

/-! ### Pieces -/

/-- A character that stands for itself: no quote, no bracket and no white space. -/
structure IsPlain (c : Char) : Prop where
  quote : c ≠ '"'
  blank : isBlank c = false
  bracket : c ∉ brackets

instance : DecidablePred IsPlain := fun c =>
  decidable_of_iff (c ≠ '"' ∧ isBlank c = false ∧ c ∉ brackets)
    ⟨fun h => ⟨h.1, h.2.1, h.2.2⟩, fun h => ⟨h.quote, h.blank, h.bracket⟩⟩

/-- A piece of a text that can be flattened. -/
inductive Piece where
  | mark (c : Char) (plain : IsPlain c)
  /-- A literal, and its number. -/
  | literal (number : Nat) (text : List Char) (closed : '"' ∉ text)
  /-- A group, its number and its pieces. -/
  | group (number : Nat) (kind : Bracket) (body : List Piece)

namespace Piece

/-- Induction over pieces: a group may assume the statement of its pieces. -/
theorem induct {motive : Piece → Prop} (mark : ∀ c plain, motive (.mark c plain))
    (literal : ∀ number text closed, motive (.literal number text closed))
    (group : ∀ number kind body, (∀ p ∈ body, motive p) → motive (.group number kind body)) :
    ∀ p, motive p :=
  @Piece.rec motive (fun body => ∀ p ∈ body, motive p) mark literal group
    (List.forall_mem_nil _) (fun _ _ hp hps => List.forall_mem_cons.mpr ⟨hp, hps⟩)

/-- What is left of a piece in the flat form. -/
def text : Piece → List Char
  | .mark c _ => [c]
  | .literal number _ _ => '$' :: Reference.digits number
  | .group number _ _ => Reference.digits number

/-- What is left of pieces in the flat form. -/
def flatText (ps : List Piece) : List Char := ps.flatMap text

@[simp] theorem flatText_nil : flatText [] = [] := rfl

@[simp] theorem flatText_cons (p : Piece) (ps : List Piece) :
    flatText (p :: ps) = p.text ++ flatText ps := rfl

@[simp] theorem flatText_append (ps qs : List Piece) :
    flatText (ps ++ qs) = flatText ps ++ flatText qs := List.flatMap_append

theorem text_ne_nil (p : Piece) : p.text ≠ [] := by
  cases p with
  | mark c plain => exact List.cons_ne_nil _ _
  | literal number text closed => exact List.cons_ne_nil _ _
  | group number kind body => exact Nat.toDigits_ne_nil

/-- No piece leaves nothing behind. -/
theorem flatText_eq_nil_iff {ps : List Piece} : flatText ps = [] ↔ ps = [] := by
  constructor
  · intro h
    cases ps with
    | nil => rfl
    | cons p ps => exact absurd (List.append_eq_nil_iff.mp h).1 p.text_ne_nil
  · rintro rfl
    rfl

/-- Of what is left of a literal or a group, every character is a digit or `$`. -/
theorem eq_mark_of_mem_text {p : Piece} {c : Char} (h : c ∈ p.text) (hc : c.isDigit = false)
    (hne : c ≠ '$') : ∃ plain, p = .mark c plain := by
  cases p with
  | mark d plain =>
    obtain rfl := List.mem_singleton.mp h
    exact ⟨plain, rfl⟩
  | literal number text closed =>
    rcases List.mem_cons.mp h with h | h
    · exact absurd h hne
    · exact absurd h (Reference.notMem_digits hc)
  | group number kind body => exact absurd h (Reference.notMem_digits hc)

/-- The pieces of an optional mark. -/
def optionalPieces (optional : Bool) : List Piece :=
  if optional then [.mark '?' (by decide)] else []

@[simp] theorem flatText_optionalPieces (optional : Bool) :
    flatText (optionalPieces optional) = optionalMark optional := by
  cases optional <;> rfl

mutual

/-- The lexemes of a piece. -/
def lexemes : Piece → List Lexeme
  | .mark c _ => [.mark c]
  | .literal _ text _ => [.literal text]
  | .group _ kind body => .mark kind.opener :: (lexemesOf body ++ [.mark kind.closer])

/-- The lexemes of pieces. -/
def lexemesOf : List Piece → List Lexeme
  | [] => []
  | p :: ps => p.lexemes ++ lexemesOf ps

end

theorem lexemesOf_eq_flatMap (ps : List Piece) : lexemesOf ps = ps.flatMap lexemes := by
  induction ps with
  | nil => rfl
  | cons p ps ih => rw [lexemesOf, ih, List.flatMap_cons]

/-- A group as it is recorded. -/
def recorded (kind : Bracket) (body : List Piece) : List Char :=
  kind.opener :: (flatText body ++ [kind.closer])

mutual

/-- The groups of a piece with their numbers, inner ones first. -/
def entries : Piece → List (List Char × Nat)
  | .mark _ _ | .literal _ _ _ => []
  | .group number kind body => entriesOf body ++ [(recorded kind body, number)]

/-- The groups of pieces. -/
def entriesOf : List Piece → List (List Char × Nat)
  | [] => []
  | p :: ps => p.entries ++ entriesOf ps

end

theorem entriesOf_eq_flatMap (ps : List Piece) : entriesOf ps = ps.flatMap entries := by
  induction ps with
  | nil => rfl
  | cons p ps ih => rw [entriesOf, ih, List.flatMap_cons]

mutual

/-- The literals of a piece with their numbers. -/
def quotes : Piece → List (List Char × Nat)
  | .mark _ _ => []
  | .literal number text _ => [(text, number)]
  | .group _ _ body => quotesOf body

/-- The literals of pieces. -/
def quotesOf : List Piece → List (List Char × Nat)
  | [] => []
  | p :: ps => p.quotes ++ quotesOf ps

end

theorem quotesOf_eq_flatMap (ps : List Piece) : quotesOf ps = ps.flatMap quotes := by
  induction ps with
  | nil => rfl
  | cons p ps ih => rw [quotesOf, ih, List.flatMap_cons]

section
variable {ps qs : List Piece} (h : ps.Sublist qs)
include h

theorem lexemesOf_sublist : (lexemesOf ps).Sublist (lexemesOf qs) := by
  rw [lexemesOf_eq_flatMap, lexemesOf_eq_flatMap]
  exact h.flatMap lexemes

theorem entriesOf_sublist : (entriesOf ps).Sublist (entriesOf qs) := by
  rw [entriesOf_eq_flatMap, entriesOf_eq_flatMap]
  exact h.flatMap entries

theorem quotesOf_sublist : (quotesOf ps).Sublist (quotesOf qs) := by
  rw [quotesOf_eq_flatMap, quotesOf_eq_flatMap]
  exact h.flatMap quotes

end

end Piece

open Piece

/-- A flat schema comes from the pieces of a text: its root is what is left of them,
and its tables hold their groups and their literals under their numbers. -/
structure FlatSchema.Nests (s : FlatSchema) (text : String) (ps : List Piece) : Prop where
  spells : Spells (lexemesOf ps) text.toList
  flat : s.flat = flatText ps
  entries : entriesOf ps = s.lookups.zipIdx
  quotes : quotesOf ps = s.literals.zipIdx

/-! ### Reading pieces along with a text -/

/-- Pieces that are being read: those of the innermost open group, or of the root, and
around them, for every open group, the pieces before it and its kind. -/
structure Nesting where
  here : List Piece := []
  around : List (List Piece × Bracket) := []

namespace Nesting

/-- One more piece. -/
def add (n : Nesting) (p : Piece) : Nesting := { n with here := n.here ++ [p] }

/-- What has been read, in the order of the text. -/
def lexemes (n : Nesting) : List Lexeme :=
  (n.around.reverse.flatMap fun c => lexemesOf c.1 ++ [.mark c.2.opener]) ++ lexemesOf n.here

/-- What the pieces record, in the order in which they do. -/
def gather (n : Nesting) (records : Piece → List (List Char × Nat)) : List (List Char × Nat) :=
  (n.around.reverse.flatMap fun c => c.1.flatMap records) ++ n.here.flatMap records

/-- A flat schema under construction shows what is left of the pieces. -/
inductive Shows : Nesting → List Char → List OpenGroup → Prop
  | root (here : List Piece) : Shows ⟨here, []⟩ (flatText here).reverse []
  | group {before around root groups} (kind : Bracket) (offset : Nat) (here : List Piece) :
      Shows ⟨before, around⟩ root groups → Shows ⟨here, (before, kind) :: around⟩ root
        (⟨kind, offset, (kind.opener :: flatText here).reverse⟩ :: groups)

/-- A flat schema under construction is what comes of the pieces that have been read. -/
structure Tells (n : Nesting) (a : Assembly) (ls : List Lexeme) : Prop where
  shows : n.Shows a.root a.groups
  lexemes : n.lexemes = ls
  entries : n.gather Piece.entries = a.lookups.zipIdx
  quotes : n.gather Piece.quotes = a.literals.zipIdx

theorem Shows.add {n : Nesting} {a : Assembly} (h : n.Shows a.root a.groups) (p : Piece) :
    (n.add p).Shows (a.emit p.text).root (a.emit p.text).groups := by
  obtain ⟨root, groups, lookups, literals⟩ := a
  cases h with
  | root here =>
    have hroot := Shows.root (here ++ [p])
    simpa [Assembly.emit, Nesting.add] using hroot
  | group kind offset here houter =>
    have hgroup := Shows.group kind offset (here ++ [p]) houter
    simpa [Assembly.emit, Nesting.add] using hgroup

theorem lexemes_add (n : Nesting) (p : Piece) : (n.add p).lexemes = n.lexemes ++ p.lexemes := by
  simp [lexemes, add, lexemesOf_eq_flatMap]

theorem gather_add (n : Nesting) (records : Piece → List (List Char × Nat)) (p : Piece) :
    (n.add p).gather records = n.gather records ++ records p := by
  simp [gather, add]

/-- A piece is one more, and what it records goes to the end of the tables. -/
theorem Tells.add {n : Nesting} {a : Assembly} {ls : List Lexeme} (h : n.Tells a ls) {p : Piece}
    {L M : List (List Char)} (hentries : p.entries = L.zipIdx a.lookups.length)
    (hquotes : p.quotes = M.zipIdx a.literals.length) :
    (n.add p).Tells (a.put p.text L M) (ls ++ p.lexemes) := by
  refine ⟨?_, ?_, ?_, ?_⟩
  · exact Shows.add (a := ⟨a.root, a.groups, a.lookups ++ L, a.literals ++ M⟩) h.shows p
  · rw [lexemes_add, h.lexemes]
  · rw [gather_add, h.entries, Assembly.lookups_put, List.zipIdx_append, hentries, Nat.zero_add]
  · rw [gather_add, h.quotes, Assembly.literals_put, List.zipIdx_append, hquotes, Nat.zero_add]

/-- What has been read so far stands before the group that an opening bracket begins. -/
theorem Tells.opening {n : Nesting} {a : Assembly} {ls : List Lexeme} (h : n.Tells a ls)
    (kind : Bracket) (offset : Nat) :
    Tells ⟨[], (n.here, kind) :: n.around⟩ (a.opened kind offset) (ls ++ [.mark kind.opener]) := by
  refine ⟨.group kind offset [] h.shows, ?_, ?_, ?_⟩
  · rw [← h.lexemes]
    simp [Nesting.lexemes, lexemesOf]
  · refine Eq.trans ?_ h.entries
    simp [gather]
  · refine Eq.trans ?_ h.quotes
    simp [gather]

/-- A closing bracket makes one piece of those of the innermost group, which is recorded
behind the groups inside it. -/
theorem Tells.exists_closing {n : Nesting} {a a' : Assembly} {ls : List Lexeme}
    (h : n.Tells a ls) {kind : Bracket} {offset : Nat}
    (hstep : a.step (.closing kind offset) = .ok a') :
    ∃ n' : Nesting, n'.Tells a' (ls ++ [.mark kind.closer]) := by
  obtain ⟨root, groups, lookups, literals⟩ := a
  obtain ⟨hshows, hlexemes, hentries, hquotes⟩ := h
  cases hshows with
  | root here => cases hstep
  | @group before around _ groups kind' offset' here houter =>
    simp only [Assembly.step] at hstep
    split at hstep
    · next hkind =>
      subst hkind
      obtain rfl := Except.ok.inj hstep
      let p : Piece := .group lookups.length kind' here
      refine ⟨Nesting.add ⟨before, around⟩ p, ?_, ?_, ?_, ?_⟩
      · exact Shows.add (a := ⟨root, groups, _, literals⟩) houter p
      · rw [lexemes_add, ← hlexemes]
        simp [Nesting.lexemes, Piece.lexemes, p]
      · rw [gather_add, Assembly.lookups_emit, List.zipIdx_append, ← hentries]
        simp [gather, Piece.entries, entriesOf_eq_flatMap, recorded, p]
      · rw [gather_add, Assembly.literals_emit, ← hquotes]
        simp [gather, Piece.quotes, quotesOf_eq_flatMap, p]
    · cases hstep

/-- **One token**: pieces are read along with it. -/
theorem exists_step {n : Nesting} {a a' : Assembly} {ls : List Lexeme} (h : n.Tells a ls)
    {l : Lexeme} (hl : l.IsLegible) {t : Token} (ht : Reads l t) (hstep : a.step t = .ok a') :
    ∃ n' : Nesting, n'.Tells a' (ls ++ [l]) := by
  cases ht with
  | literal text =>
    obtain rfl := Except.ok.inj hstep
    have hadd := h.add (p := .literal a.literals.length text hl) (L := []) (M := [text]) rfl rfl
    rw [Assembly.put, List.append_nil] at hadd
    exact ⟨_, hadd⟩
  | @mark c offset t ht =>
    rcases ofChar?_cases ht with ⟨kind, rfl, rfl⟩ | ⟨kind, rfl, rfl⟩ | ⟨hc, rfl⟩
    · obtain rfl := Except.ok.inj hstep
      exact ⟨_, h.opening kind offset⟩
    · exact h.exists_closing hstep
    · obtain rfl := Except.ok.inj hstep
      have hadd := h.add (p := .mark c ⟨hl.1, hl.2, hc⟩) (L := []) (M := []) rfl rfl
      rw [Assembly.put, List.append_nil, List.append_nil] at hadd
      exact ⟨_, hadd⟩

/-- **All tokens**: pieces are read along with them. -/
theorem exists_run {ls : List Lexeme} {tokens : List Token} (ht : List.Forall₂ Reads ls tokens) :
    ∀ {n : Nesting} {a a' : Assembly} {before : List Lexeme}, (∀ l ∈ ls, l.IsLegible) →
    n.Tells a before → a.run tokens = .ok a' → ∃ n' : Nesting, n'.Tells a' (before ++ ls) := by
  induction ht with
  | nil =>
    intro n a a' before _ h hrun
    obtain rfl := Except.ok.inj hrun
    exact ⟨n, (List.append_nil before).symm ▸ h⟩
  | @cons l t ls tokens hread _ ih =>
    intro n a a' before hl h hrun
    rw [Assembly.run_cons] at hrun
    cases hstep : a.step t with
    | error e =>
      rw [hstep] at hrun
      cases hrun
    | ok mid =>
      rw [hstep] at hrun
      obtain ⟨hfirst, hrest⟩ := List.forall_mem_cons.mp hl
      obtain ⟨n₁, h₁⟩ := exists_step h hfirst hread hstep
      obtain ⟨n₂, h₂⟩ := ih hrest h₁ hrun
      rw [List.append_assoc] at h₂
      exact ⟨n₂, h₂⟩

end Nesting

/-! ### Whole texts -/

/-- A flat schema is finished when no group is left open. -/
theorem Assembly.groups_eq_nil_of_finish {a : Assembly} {s : FlatSchema} (h : a.finish = .ok s) :
    a.groups = [] ∧ s = ⟨a.root.reverse, a.lookups, a.literals⟩ := by
  rw [Assembly.finish] at h
  split at h
  · cases h
  · next hgroups => exact ⟨List.getLast?_eq_none_iff.mp hgroups, (Except.ok.inj h).symm⟩

/-- What has been read of a whole text are its pieces. -/
theorem Nesting.Tells.nests {n : Nesting} {a : Assembly} {ls : List Lexeme} (h : n.Tells a ls)
    {text : String} (hls : Spells ls text.toList) {s : FlatSchema} (hs : a.finish = .ok s) :
    s.Nests text n.here := by
  obtain ⟨hgroups, rfl⟩ := Assembly.groups_eq_nil_of_finish hs
  obtain ⟨hshows, hlexemes, hentries, hquotes⟩ := h
  rw [hgroups] at hshows
  generalize a.root = root at hshows
  cases hshows with
  | root here =>
    have hhere : lexemesOf here = ls := hlexemes
    refine ⟨hhere ▸ hls, List.reverse_reverse _, ?_, ?_⟩
    · rw [entriesOf_eq_flatMap]
      exact hentries
    · rw [quotesOf_eq_flatMap]
      exact hquotes

/-- **A flat schema comes from the pieces of its text.** -/
theorem exists_nests {text : String} {s : FlatSchema} (h : flatten text = .ok s) :
    ∃ ps, s.Nests text ps := by
  obtain ⟨ls, read, tail, htext, hread, hl, htail⟩ := exists_spells text.toList
  rw [flatten, htext] at h
  rcases htail with rfl | ⟨body, rfl, hbody⟩
  · rw [List.append_nil] at htext h
    obtain ⟨tokens, htokens, hreads⟩ := hread.tokenize_eq hl
    rw [htokens] at h
    cases hrun : ({} : Assembly).run tokens with
    | error e =>
      rw [Except.bind, hrun] at h
      cases h
    | ok a =>
      rw [Except.bind, hrun] at h
      have hempty : ({} : Nesting).Tells {} [] := ⟨.root [], rfl, rfl, rfl⟩
      obtain ⟨n, hn⟩ := Nesting.exists_run hreads hl hempty hrun
      exact ⟨n.here, hn.nests (htext ▸ hread) h⟩
  · -- a quote is never closed
    obtain ⟨e, he⟩ := tokenize_unclosed hread hl hbody
    rw [he] at h
    cases h

end TerseSchema
