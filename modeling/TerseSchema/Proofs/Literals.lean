import TerseSchema.Proofs.Assembly
import TerseSchema.Proofs.Rewriting

/-!
# The literals of a text

Every text spells lexemes, up to a literal that is never closed if it has one.  The
tokens of the lexemes have a text of their own, in which placeholders stand for the
literals; it is what rewriting leaves of the text, but for white space.

## Main definitions

* `Token.piece`, `render` — the text of tokens, with placeholders for literals.
* `IsLeftOver` — what may be left of a text behind its lexemes.

## Main results

* `Spells.lifts` — **tokens have the text that the literals have left.**
* `exists_spells`, `tokenize_unclosed` — what every text spells, and what becomes of a
  quote that is never closed.
-/

namespace TerseSchema

/-! ### The text of tokens -/

/-- The literal of a token. -/
def Token.literals : Token → List (List Char)
  | .literal text => [text]
  | _ => []

/-- The text of a token, when so many literals stand before it. -/
def Token.piece (number : Nat) : Token → List Char
  | .literal _ => '$' :: Reference.digits number
  | .opening kind _ => [kind.opener]
  | .closing kind _ => [kind.closer]
  | .plain c => [c]

/-- The text of tokens. -/
def render (number : Nat) : List Token → List Char
  | [] => []
  | t :: ts => t.piece number ++ render (number + t.literals.length) ts

/-- The token of a mark has the mark as its text. -/
theorem Reads.piece_mark {c : Char} {t : Token} (h : Reads (.mark c) t) (number : Nat) :
    t.piece number = [c] ∧ t.literals = [] := by
  cases h with
  | mark h =>
    rcases ofChar?_cases h with ⟨kind, rfl, rfl⟩ | ⟨kind, rfl, rfl⟩ | ⟨-, rfl⟩
    · exact ⟨rfl, rfl⟩
    · exact ⟨rfl, rfl⟩
    · exact ⟨rfl, rfl⟩

theorem Reads.plain_notMem {l : Lexeme} {c : Char} (h : Reads l (.plain c)) : c ∉ brackets := by
  cases h with
  | mark h =>
    rcases ofChar?_cases h with ⟨kind, rfl, ht⟩ | ⟨kind, rfl, ht⟩ | ⟨hc, ht⟩
    · cases ht
    · cases ht
    · cases ht
      exact hc

/-! ### Literals -/

theorem isBlank_of_isDigit {c : Char} (h : c.isDigit = true) : isBlank c = false := by
  have hrange : 48 ≤ c.toNat ∧ c.toNat ≤ 57 := by
    simpa [Char.isDigit, UInt32.le_iff_toNat_le] using h
  simp only [isBlank, blankRanges, List.any_cons, List.any_nil, Bool.or_eq_false_iff,
    Bool.and_eq_false_iff, decide_eq_false_iff_not, and_true]
  omega

/-- A placeholder is no white space and has no quote. -/
theorem placeholder_plain (number : Nat) :
    '"' ∉ '$' :: Reference.digits number ∧
      ('$' :: Reference.digits number).filter (fun c => !isBlank c) =
        '$' :: Reference.digits number := by
  constructor
  · rw [List.mem_cons, not_or]
    exact ⟨by decide, Reference.notMem_digits (by decide)⟩
  · refine List.filter_eq_self.mpr fun c hc => ?_
    rcases List.mem_cons.mp hc with rfl | hc
    · decide
    · rw [isBlank_of_isDigit (Reference.isDigit_of_mem hc)]
      rfl

/-- **Tokens have the text that the literals have left**, but for white space. -/
theorem Spells.lifts {ls : List Lexeme} {text : List Char} (h : Spells ls text)
    (hl : ∀ l ∈ ls, l.IsLegible) {tokens : List Token} (ht : List.Forall₂ Reads ls tokens)
    (table : List (List Char)) : ∃ bare, '"' ∉ bare ∧
      bare.filter (fun c => !isBlank c) = render table.length tokens ∧
      ∀ before, '"' ∉ before → Relation.ReflTransGen LiftsLiteral ⟨before ++ text, table⟩
        ⟨before ++ bare, table ++ tokens.flatMap Token.literals⟩ := by
  induction h generalizing tokens table with
  | nil =>
    cases ht
    refine ⟨[], List.not_mem_nil, rfl, fun before _ => ?_⟩
    rw [List.flatMap_nil, List.append_nil table]
  | @blank ls text c hc _ ih =>
    have hquote := ne_quote_of_isBlank hc
    obtain ⟨bare, hbare, hfilter, hlifts⟩ := ih hl ht table
    refine ⟨c :: bare, by simp [hbare, hquote.symm], ?_, fun before hbefore => ?_⟩
    · rw [List.filter_cons_of_neg (by simp [hc]), hfilter]
    · have hc' := hlifts (before ++ [c]) (by simp [hbefore, hquote.symm])
      simpa only [List.append_assoc, List.singleton_append] using hc'
  | @mark ls text c _ ih =>
    cases ht with
    | @cons _ t _ tokens hread ht =>
      obtain ⟨hquote, hblank⟩ : (Lexeme.mark c).IsLegible := hl _ List.mem_cons_self
      obtain ⟨hpiece, hliterals⟩ := hread.piece_mark table.length
      obtain ⟨bare, hbare, hfilter, hlifts⟩ :=
        ih (fun l h => hl l (List.mem_cons_of_mem _ h)) ht table
      refine ⟨c :: bare, by simp [hbare, hquote.symm], ?_, fun before hbefore => ?_⟩
      · rw [List.filter_cons_of_pos (by simp [hblank]), hfilter, render, hpiece, hliterals]
        rfl
      · have hc' := hlifts (before ++ [c]) (by simp [hbefore, hquote.symm])
        rw [List.flatMap_cons, hliterals, List.nil_append]
        simpa only [List.append_assoc, List.singleton_append] using hc'
  | @literal ls text body _ ih =>
    cases ht with
    | @cons _ t _ tokens hread ht =>
      cases hread
      have hbody : '"' ∉ body := hl _ List.mem_cons_self
      obtain ⟨hquote, hblank⟩ := placeholder_plain table.length
      obtain ⟨bare, hbare, hfilter, hlifts⟩ :=
        ih (fun l h => hl l (List.mem_cons_of_mem _ h)) ht (table ++ [body])
      rw [List.length_append, List.length_singleton] at hfilter
      refine ⟨'$' :: Reference.digits table.length ++ bare, ?_, ?_, fun before hbefore => ?_⟩
      · rw [List.mem_append, not_or]
        exact ⟨hquote, hbare⟩
      · rw [List.filter_append, hblank, hfilter]
        rfl
      · -- the literal is the left-most one, since no quote is before it
        have hstep : LiftsLiteral ⟨before ++ '"' :: (body ++ '"' :: text), table⟩
            ⟨before ++ '$' :: (Reference.digits table.length ++ text), table ++ [body]⟩ :=
          ⟨before, body, text, hbefore, hbody, rfl, rfl⟩
        have hrest := hlifts (before ++ '$' :: Reference.digits table.length) (by
          rw [List.mem_append, not_or]
          exact ⟨hbefore, hquote⟩)
        refine .head hstep ?_
        simpa only [List.append_assoc, List.cons_append, List.flatMap_cons, Token.literals,
          List.singleton_append] using hrest

/-! ### Quotes -/

theorem Spells.append {ls ms : List Lexeme} {text more : List Char} (h : Spells ls text)
    (h' : Spells ms more) : Spells (ls ++ ms) (text ++ more) := by
  induction h with
  | nil => exact h'
  | blank c hc _ ih => exact .blank c hc ih
  | mark c _ ih => exact .mark c ih
  | literal body _ ih => simpa using Spells.literal body ih

/-- What may be left of a text behind its lexemes: nothing, or a literal that is never
closed. -/
def IsLeftOver (tail : List Char) : Prop := tail = [] ∨ ∃ body, tail = '"' :: body ∧ '"' ∉ body

/-- A text begins with a lexeme or a blank, unless nothing is left of it. -/
theorem exists_first {text : List Char} (h : ¬ IsLeftOver text) : ∃ ls first rest,
    text = first ++ rest ∧ first ≠ [] ∧ Spells ls first ∧ ∀ l ∈ ls, l.IsLegible := by
  obtain ⟨hne, hopen⟩ := not_or.mp h
  obtain ⟨c, rest, rfl⟩ := List.exists_cons_of_ne_nil hne
  by_cases hquote : c = '"'
  · subst hquote
    have hclosed : '"' ∈ rest := by
      by_contra hnot
      exact hopen ⟨rest, rfl, hnot⟩
    obtain ⟨body, after, rfl, hbody⟩ := List.eq_append_cons_of_mem hclosed
    exact ⟨[.literal body], '"' :: (body ++ '"' :: []), after, by simp, List.cons_ne_nil _ _,
      .literal body .nil, List.forall_mem_singleton.mpr hbody⟩
  · cases hblank : isBlank c with
    | true =>
      exact ⟨[], [c], rest, rfl, List.cons_ne_nil _ _, .blank c hblank .nil,
        List.forall_mem_nil _⟩
    | false =>
      exact ⟨[.mark c], [c], rest, rfl, List.cons_ne_nil _ _, .mark c .nil,
        List.forall_mem_singleton.mpr ⟨hquote, hblank⟩⟩

/-- **A text spells lexemes**, up to a literal that is never closed if it has one. -/
theorem exists_spells (text : List Char) : ∃ ls read tail, text = read ++ tail ∧
    Spells ls read ∧ (∀ l ∈ ls, l.IsLegible) ∧ IsLeftOver tail := by
  induction hn : text.length using Nat.strongRecOn generalizing text with
  | _ n ih =>
    by_cases hleft : IsLeftOver text
    · exact ⟨[], [], text, rfl, .nil, List.forall_mem_nil _, hleft⟩
    · obtain ⟨ls, first, rest, rfl, hne, hfirst, hl⟩ := exists_first hleft
      have hlength : rest.length < n := by
        have hpos := List.length_pos_iff.mpr hne
        rw [← hn, List.length_append]
        omega
      obtain ⟨ms, read, tail, rfl, hread, hm, htail⟩ := ih rest.length hlength rest rfl
      refine ⟨ls ++ ms, first ++ read, tail, (List.append_assoc _ _ _).symm, hfirst.append hread,
        List.forall_mem_append.mpr ⟨hl, hm⟩, htail⟩

/-- The text of a literal. -/
def Lexeme.literal? : Lexeme → Option (List Char)
  | .mark _ => none
  | .literal text => some text

/-- Every literal has two quotes, and there are no others. -/
theorem Spells.count_quote_eq {ls : List Lexeme} {text : List Char} (h : Spells ls text)
    (hl : ∀ l ∈ ls, l.IsLegible) :
    text.count '"' = 2 * (ls.filterMap Lexeme.literal?).length := by
  induction h with
  | nil => rfl
  | @blank ls text c hc _ ih =>
    have hquote := ne_quote_of_isBlank hc
    rw [List.count_cons_of_ne hquote]
    exact ih hl
  | @mark ls text c _ ih =>
    have hquote : c ≠ '"' := (hl _ List.mem_cons_self).1
    rw [List.count_cons_of_ne hquote]
    exact ih fun l h => hl l (List.mem_cons_of_mem _ h)
  | @literal ls text body _ ih =>
    have hbody : body.count '"' = 0 := List.count_eq_zero.mpr (hl _ List.mem_cons_self)
    have hcount := ih fun l h => hl l (List.mem_cons_of_mem _ h)
    have hliterals : (Lexeme.literal body :: ls).filterMap Lexeme.literal? =
        body :: ls.filterMap Lexeme.literal? := rfl
    rw [List.count_cons_self, List.count_append, List.count_cons_self, hbody, hcount, hliterals,
      List.length_cons]
    omega

/-- What is legible has closed its quotes. -/
theorem Spells.count_quote {ls : List Lexeme} {text : List Char} (h : Spells ls text)
    (hl : ∀ l ∈ ls, l.IsLegible) : text.count '"' % 2 = 0 := by
  rw [h.count_quote_eq hl]
  omega

/-- A literal that is not closed stays open. -/
theorem Reader.run_open : ∀ (body acc : List Char) (offset start : Nat) (tokens : List Token),
    '"' ∉ body → ∃ offset' acc',
      (⟨offset, some (start, acc), tokens⟩ : Reader).run body =
        ⟨offset', some (start, acc'), tokens⟩ := by
  intro body
  induction body with
  | nil => exact fun acc offset start tokens _ => ⟨offset, acc, rfl⟩
  | cons c body ih =>
    intro acc offset start tokens h
    rw [List.mem_cons, not_or] at h
    have hc : c ≠ '"' := fun e => h.1 e.symm
    rw [Reader.run_cons, Reader.step]
    simp only [if_neg hc]
    exact ih (c :: acc) (offset + c.utf8Size) start tokens h.2

/-- A quote that is never closed is reported. -/
theorem tokenize_unclosed {ls : List Lexeme} {read body : List Char} (h : Spells ls read)
    (hl : ∀ l ∈ ls, l.IsLegible) (hbody : '"' ∉ body) :
    ∃ e, tokenize (read ++ '"' :: body) = .error e := by
  obtain ⟨offset, tokens, hrun, -⟩ := h.run hl 0 []
  obtain ⟨offset', acc, hopen⟩ :=
    Reader.run_open body [] (offset + '"'.utf8Size) offset (tokens.reverse ++ []) hbody
  refine ⟨.missingClosingQuote offset, ?_⟩
  rw [tokenize, Reader.run_append, hrun, Reader.run_cons, Reader.step]
  simp only [if_pos, hopen]

end TerseSchema
