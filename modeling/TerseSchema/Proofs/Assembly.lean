import TerseSchema.Proofs.Draft
import TerseSchema.Schema.Flat

/-!
# Taking lexemes into the flat form

A text that spells lexemes is read as one token for each of them, whatever white
space it holds.  Assembling the tokens of a group leaves its number behind, one
entry more in the table, and the open groups as they were.

## Main definitions

* `Reads` — the token of a lexeme.
* `Writes a ls a'` — assembling the tokens of `ls` leads from `a` to `a'`.
* `Assembly.put` — a piece of text at the innermost open group, and entries at the
  end of both tables.
* `Assembles ls P` — wherever assembling starts, `ls` leaves a piece behind that
  `P` holds of, and adds to the tables.

## Main results

* `Spells.tokenize_eq` — the tokens of a text that spells lexemes.
* `writes_group` — a group leaves its number behind.
* `flatten_of_writes` — the flat form of a text is what its lexemes leave behind.
* `assembles_items` — items behind one another, with commas between them.
-/

namespace TerseSchema

/-! ### From lexemes to tokens -/

/-- A lexeme that can be told from what stands around it. -/
def Lexeme.IsLegible : Lexeme → Prop
  | .mark c => c ≠ '"' ∧ isBlank c = false
  | .literal text => '"' ∉ text

theorem legible_spelled {text : List Char} (h : ∀ c ∈ text, c ≠ '"' ∧ isBlank c = false) :
    ∀ l ∈ spelled text, l.IsLegible := by
  intro l hl
  obtain ⟨c, hc, rfl⟩ := List.mem_map.mp hl
  exact h c hc

/-- Characters spell themselves. -/
theorem spells_spelled (text : List Char) : Spells (spelled text) text := by
  induction text with
  | nil => exact .nil
  | cons c text ih => exact .mark c ih

/-- The token of a lexeme, at some offset. -/
inductive Reads : Lexeme → Token → Prop
  | literal (text : List Char) : Reads (.literal text) (.literal text)
  | mark {c offset t} : Token.ofChar? c offset = some t → Reads (.mark c) t

theorem ne_quote_of_isBlank {c : Char} (h : isBlank c) : c ≠ '"' := by
  rintro rfl
  exact absurd h (by decide)

theorem ofChar?_blank {c : Char} (h : isBlank c) (offset : Nat) :
    Token.ofChar? c offset = none := by
  unfold Token.ofChar?
  split
  · exact absurd h (by decide)
  · exact absurd h (by decide)
  · exact absurd h (by decide)
  · exact absurd h (by decide)
  · rw [if_pos h]

theorem exists_ofChar? {c : Char} (h : isBlank c = false) (offset : Nat) :
    ∃ t, Token.ofChar? c offset = some t := by
  unfold Token.ofChar?
  split
  · exact ⟨_, rfl⟩
  · exact ⟨_, rfl⟩
  · exact ⟨_, rfl⟩
  · exact ⟨_, rfl⟩
  · exact ⟨.plain c, by rw [h]; rfl⟩

/-- What becomes of a character outside literals. -/
theorem ofChar?_cases {c : Char} {offset : Nat} {t : Token}
    (h : Token.ofChar? c offset = some t) :
    (∃ kind : Bracket, c = kind.opener ∧ t = .opening kind offset) ∨
      (∃ kind : Bracket, c = kind.closer ∧ t = .closing kind offset) ∨
      c ∉ ['[', '{', ']', '}'] ∧ t = .plain c := by
  unfold Token.ofChar? at h
  split at h
  · exact .inl ⟨.square, rfl, (Option.some.inj h).symm⟩
  · exact .inl ⟨.curly, rfl, (Option.some.inj h).symm⟩
  · exact .inr (.inl ⟨.square, rfl, (Option.some.inj h).symm⟩)
  · exact .inr (.inl ⟨.curly, rfl, (Option.some.inj h).symm⟩)
  · split at h
    · cases h
    · refine .inr (.inr ⟨?_, (Option.some.inj h).symm⟩)
      simp_all

/-- The characters of a literal are read up to its closing quote. -/
theorem Reader.run_literal : ∀ (body rest acc : List Char) (offset start : Nat)
    (tokens : List Token), '"' ∉ body → ∃ offset',
    (⟨offset, some (start, acc), tokens⟩ : Reader).run (body ++ '"' :: rest) =
      (⟨offset', none, .literal (acc.reverse ++ body) :: tokens⟩ : Reader).run rest := by
  intro body
  induction body with
  | nil =>
    intro rest acc offset start tokens _
    refine ⟨offset + '"'.utf8Size, ?_⟩
    rw [List.nil_append, Reader.run_cons, Reader.step, List.append_nil]
    rfl
  | cons c body ih =>
    -- the reader keeps what it has read of a literal in reverse
    intro rest acc offset start tokens h
    rw [List.mem_cons, not_or] at h
    have hc : c ≠ '"' := fun e => h.1 e.symm
    obtain ⟨offset', hrun⟩ := ih rest (c :: acc) (offset + c.utf8Size) start tokens h.2
    refine ⟨offset', ?_⟩
    rw [List.cons_append, Reader.run_cons, Reader.step]
    simp only [if_neg hc]
    rw [hrun, List.reverse_cons, List.append_assoc, List.singleton_append]

/-- Reading on outside literals a text that spells lexemes. -/
theorem Spells.run {ls : List Lexeme} {text : List Char} (h : Spells ls text)
    (hl : ∀ l ∈ ls, l.IsLegible) : ∀ (offset : Nat) (before : List Token),
    ∃ offset' tokens, (⟨offset, none, before⟩ : Reader).run text =
      ⟨offset', none, tokens.reverse ++ before⟩ ∧ List.Forall₂ Reads ls tokens := by
  induction h with
  | nil => exact fun offset before => ⟨offset, [], rfl, .nil⟩
  | @blank ls text c hc _ ih =>
    intro offset before
    -- white space is no token, and no quote either
    have hquote := ne_quote_of_isBlank hc
    obtain ⟨offset', tokens, hrun, htokens⟩ := ih hl (offset + c.utf8Size) before
    refine ⟨offset', tokens, ?_, htokens⟩
    rw [Reader.run_cons, Reader.step]
    simp only [if_neg hquote, ofChar?_blank hc]
    exact hrun
  | @mark ls text c _ ih =>
    intro offset before
    have hc : (Lexeme.mark c).IsLegible := hl _ List.mem_cons_self
    obtain ⟨t, ht⟩ := exists_ofChar? hc.2 offset
    obtain ⟨offset', tokens, hrun, htokens⟩ :=
      ih (fun l h => hl l (List.mem_cons_of_mem _ h)) (offset + c.utf8Size) (t :: before)
    refine ⟨offset', t :: tokens, ?_, .cons (.mark ht) htokens⟩
    rw [Reader.run_cons, Reader.step]
    simp only [if_neg hc.1, ht]
    rw [List.reverse_cons, List.append_assoc]
    exact hrun
  | @literal ls text body _ ih =>
    intro offset before
    have hbody : '"' ∉ body := hl _ List.mem_cons_self
    obtain ⟨mid, hmid⟩ :=
      Reader.run_literal body text [] (offset + '"'.utf8Size) offset before hbody
    obtain ⟨offset', tokens, hrun, htokens⟩ :=
      ih (fun l h => hl l (List.mem_cons_of_mem _ h)) mid (.literal body :: before)
    refine ⟨offset', .literal body :: tokens, ?_, .cons (.literal body) htokens⟩
    rw [Reader.run_cons, Reader.step]
    simp only [if_pos]
    rw [hmid, List.reverse_cons, List.append_assoc]
    exact hrun

/-- **The tokens of a text that spells lexemes**: one for each, in order. -/
theorem Spells.tokenize_eq {ls : List Lexeme} {text : List Char} (h : Spells ls text)
    (hl : ∀ l ∈ ls, l.IsLegible) :
    ∃ tokens, tokenize text = .ok tokens ∧ List.Forall₂ Reads ls tokens := by
  obtain ⟨offset, tokens, hrun, htokens⟩ := h.run hl 0 []
  refine ⟨tokens, ?_, htokens⟩
  rw [tokenize, hrun]
  simp

/-! ### From tokens to the flat form -/

/-- Assembling the tokens of lexemes leads from one flat schema under construction
to another, wherever the tokens stand in their text. -/
def Writes : Assembly → List Lexeme → Assembly → Prop
  | a, [], a' => a' = a
  | a, l :: ls, a' => ∀ t, Reads l t → ∃ mid, a.step t = .ok mid ∧ Writes mid ls a'

theorem Writes.append {ls ms : List Lexeme} : ∀ {a mid a' : Assembly},
    Writes a ls mid → Writes mid ms a' → Writes a (ls ++ ms) a' := by
  induction ls with
  | nil =>
    intro a mid a' h h'
    rw [show mid = a from h] at h'
    exact h'
  | cons l ls ih =>
    intro a mid a' h h' t ht
    obtain ⟨next, hstep, hnext⟩ := h t ht
    exact ⟨next, hstep, ih hnext h'⟩

theorem Writes.run_eq {ls : List Lexeme} {tokens : List Token}
    (ht : List.Forall₂ Reads ls tokens) : ∀ {a a' : Assembly}, Writes a ls a' →
    a.run tokens = .ok a' := by
  induction ht with
  | nil =>
    intro a a' h
    rw [Assembly.run_nil, show a' = a from h]
  | cons hr _ ih =>
    intro a a' h
    obtain ⟨mid, hstep, hmid⟩ := h _ hr
    rw [Assembly.run_cons, hstep]
    exact ih hmid

namespace Assembly

@[simp] theorem lookups_emit (a : Assembly) (piece : List Char) :
    (a.emit piece).lookups = a.lookups := by
  unfold emit
  split <;> rfl

@[simp] theorem literals_emit (a : Assembly) (piece : List Char) :
    (a.emit piece).literals = a.literals := by
  unfold emit
  split <;> rfl

/-- A piece of text at the innermost open group, and entries at the end of both
tables. -/
def put (a : Assembly) (piece : List Char) (lookups literals : List (List Char)) : Assembly :=
  { a with lookups := a.lookups ++ lookups, literals := a.literals ++ literals }.emit piece

@[simp] theorem lookups_put (a : Assembly) (piece : List Char) (L M : List (List Char)) :
    (a.put piece L M).lookups = a.lookups ++ L :=
  lookups_emit _ piece

@[simp] theorem literals_put (a : Assembly) (piece : List Char) (L M : List (List Char)) :
    (a.put piece L M).literals = a.literals ++ M :=
  literals_emit _ piece

theorem put_nil (a : Assembly) : a.put [] [] [] = a := by
  obtain ⟨root, groups, lookups, literals⟩ := a
  cases groups <;> simp [put, emit]

theorem put_put (a : Assembly) (p q : List Char) (L M L' M' : List (List Char)) :
    (a.put p L M).put q L' M' = a.put (p ++ q) (L ++ L') (M ++ M') := by
  obtain ⟨root, groups, lookups, literals⟩ := a
  cases groups <;> simp [put, emit]

end Assembly

theorem Reads.eq_plain {c : Char} {t : Token} (h : Reads (.mark c) t)
    (hc : c ∉ ['[', '{', ']', '}']) : t = .plain c := by
  cases h with
  | mark h =>
    rcases ofChar?_cases h with ⟨kind, rfl, -⟩ | ⟨kind, rfl, -⟩ | ⟨-, ht⟩
    · cases kind <;> exact absurd (by decide) hc
    · cases kind <;> exact absurd (by decide) hc
    · exact ht

/-- Text without brackets is left as it stands. -/
theorem writes_spelled : ∀ (text : List Char) (a : Assembly),
    (∀ c ∈ text, c ∉ ['[', '{', ']', '}']) → Writes a (spelled text) (a.put text [] []) := by
  intro text
  induction text with
  | nil => exact fun a _ => a.put_nil
  | cons c text ih =>
    intro a h t ht
    obtain rfl := ht.eq_plain (h c List.mem_cons_self)
    refine ⟨a.put [c] [] [], ?_, ?_⟩
    · rw [Assembly.step, Assembly.put, List.append_nil, List.append_nil]
    · have ih' := ih (a.put [c] [] []) fun d hd => h d (List.mem_cons_of_mem _ hd)
      rw [Assembly.put_put] at ih'
      exact ih'

/-- A literal leaves its placeholder behind. -/
theorem writes_literal (text : List Char) (a : Assembly) :
    Writes a [.literal text]
      (a.put ('$' :: Reference.digits a.literals.length) [] [text]) := by
  intro t ht
  cases ht
  refine ⟨_, rfl, ?_⟩
  rw [Writes, Assembly.put, List.append_nil]

/-- A flat schema under construction with one more open group. -/
def Assembly.opened (a : Assembly) (kind : Bracket) (offset : Nat) : Assembly :=
  { a with groups := ⟨kind, offset, [kind.opener]⟩ :: a.groups }

theorem Reads.eq_opening {kind : Bracket} {t : Token} (h : Reads (.mark kind.opener) t) :
    ∃ offset, t = .opening kind offset := by
  cases h with
  | @mark _ offset _ h => cases kind <;> exact ⟨offset, (Option.some.inj h).symm⟩

theorem Reads.eq_closing {kind : Bracket} {t : Token} (h : Reads (.mark kind.closer) t) :
    ∃ offset, t = .closing kind offset := by
  cases h with
  | @mark _ offset _ h => cases kind <;> exact ⟨offset, (Option.some.inj h).symm⟩

/-- **A group leaves its number behind**, and its text at the end of the table. -/
theorem writes_group (kind : Bracket) (a : Assembly) {inner : List Lexeme} {body : List Char}
    {L M : List (List Char)}
    (h : ∀ offset, Writes (a.opened kind offset) inner ((a.opened kind offset).put body L M)) :
    Writes a (.mark kind.opener :: inner ++ [.mark kind.closer])
      (a.put (Reference.digits (a.lookups ++ L).length)
        (L ++ [kind.opener :: (body ++ [kind.closer])]) M) := by
  intro t ht
  obtain ⟨offset, rfl⟩ := ht.eq_opening
  refine ⟨a.opened kind offset, rfl, (h offset).append ?_⟩
  intro t ht
  obtain ⟨offset', rfl⟩ := ht.eq_closing
  refine ⟨_, if_pos rfl, ?_⟩
  rw [Writes]
  simp [Assembly.put, Assembly.opened, Assembly.emit]

theorem Assembly.finish_put (piece : List Char) (L M : List (List Char)) :
    (({} : Assembly).put piece L M).finish = .ok ⟨piece, L, M⟩ := by
  show Except.ok (FlatSchema.mk (piece.reverse ++ []).reverse ([] ++ L) ([] ++ M)) = _
  rw [List.append_nil, List.reverse_reverse, List.nil_append, List.nil_append]

/-- **A text is flattened to what its lexemes leave behind.** -/
theorem flatten_of_writes {ls : List Lexeme} {text : String} (ht : Spells ls text.toList)
    (hl : ∀ l ∈ ls, l.IsLegible) {piece : List Char} {L M : List (List Char)}
    (h : Writes {} ls (({} : Assembly).put piece L M)) : flatten text = .ok ⟨piece, L, M⟩ := by
  obtain ⟨tokens, htokens, hreads⟩ := ht.tokenize_eq hl
  rw [flatten, htokens]
  show (Assembly.run {} tokens).bind Assembly.finish = _
  rw [h.run_eq hreads]
  exact Assembly.finish_put piece L M

/-! ### Pieces -/

/-- What may be said of a piece of text over the two tables. -/
abbrev PieceProp := List (List Char) → List (List Char) → List Char → Prop

/-- What is said of a piece stays true while the tables grow. -/
def PieceProp.Stable (P : PieceProp) : Prop :=
  ∀ lookups literals L M piece, P lookups literals piece → P (lookups ++ L) (literals ++ M) piece

/-- Wherever assembling starts, lexemes leave a piece behind that `P` holds of, and
only add to the tables.  The piece depends on the tables alone, and not on the
groups that are open. -/
def Assembles (ls : List Lexeme) (P : PieceProp) : Prop :=
  ∀ lookups literals, ∃ piece L M,
    (∀ a : Assembly, a.lookups = lookups → a.literals = literals →
      Writes a ls (a.put piece L M)) ∧
    P (lookups ++ L) (literals ++ M) piece

/-- Items behind one another, with commas between them, leave their pieces behind
in the same way. -/
theorem assembles_items {ι : Type} {lexemes : ι → List Lexeme} {P : ι → PieceProp}
    (hP : ∀ i, (P i).Stable) {items : List ι} (h : ∀ i ∈ items, Assembles (lexemes i) (P i)) :
    Assembles ([.mark ','].intercalate (items.map lexemes)) fun lookups literals text =>
      ∃ pieces, text = [','].intercalate pieces ∧
        List.Forall₂ (fun i piece => P i lookups literals piece) items pieces := by
  induction items with
  | nil => exact fun _ _ => ⟨[], [], [], fun a _ _ => a.put_nil, [], rfl, .nil⟩
  | cons i items ih =>
    intro lookups literals
    obtain ⟨piece, L, M, hwrites, hpiece⟩ := h i List.mem_cons_self lookups literals
    have hitems : ∀ j ∈ items, Assembles (lexemes j) (P j) :=
      fun j hj => h j (List.mem_cons_of_mem _ hj)
    by_cases hnil : items = []
    · -- no comma behind the last item
      subst hnil
      exact ⟨piece, L, M, by simpa using hwrites, [piece], by simp, .cons hpiece .nil⟩
    · -- the other items find the tables as the first one leaves them
      obtain ⟨text, L', M', hwrites', pieces, rfl, hpieces⟩ :=
        ih hitems (lookups ++ L) (literals ++ M)
      rw [List.append_assoc, List.append_assoc] at hpieces
      have hne : pieces ≠ [] := by
        rintro rfl
        exact hnil (List.forall₂_nil_right_iff.mp hpieces)
      refine ⟨piece ++ ([','] ++ [','].intercalate pieces), L ++ L', M ++ M',
        fun a hL hM => ?_, piece :: pieces, ?_, .cons ?_ hpieces⟩
      · have hcomma := writes_spelled [','] (a.put piece L M) (by simp)
        have hrest := hwrites' ((a.put piece L M).put [','] [] [])
          (by simp [hL]) (by simp [hM])
        have hall := ((hwrites a hL hM).append hcomma).append hrest
        simp only [Assembly.put_put, List.append_nil, List.append_assoc] at hall
        rw [List.map_cons, List.intercalate_cons_of_ne_nil (by simpa using hnil),
          List.append_assoc]
        exact hall
      · rw [List.intercalate_cons_of_ne_nil hne, List.append_assoc]
      · rw [← List.append_assoc, ← List.append_assoc]
        exact hP i _ _ _ _ _ hpiece

end TerseSchema
