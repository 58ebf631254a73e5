import Mathlib.Order.WellFounded
import TerseSchema.Proofs.Literals

/-!
# Texts that cannot be flattened

A text is flattened exactly if all its literals are closed and, outside literals, it is
well nested.  If it is not, the fault is named with its place: the last quote if the
quotes are odd in number, else the first closing bracket without an open partner of its
kind, else the earliest opening bracket that is never closed.  What is open behind a
text decides all of this, and a well-nested text leaves it as it was.

## Main definitions

* `WellNested` — a text of characters, closed literals and groups.
* `StrayCloser`, `UnclosedOpener` — the places of brackets that are at fault.
* `Fault` — the fault of a text.
* `openBrackets` — what is open behind a text; `Pending` says so of the text itself.

## Main results

* `openBrackets_append` — **a well-nested text leaves what is open as it was.**
* `exists_pending` — what is open behind a text is what the text has left open.
* `flatten_eq_error_iff` — **flattening fails with the fault of the text, at its place.**
-/

namespace TerseSchema

/-! ### Faults -/

/-- The bytes of a text in UTF-8. -/
def bytes (text : List Char) : Nat := (String.ofList text).utf8ByteSize

/-- What follows a text stands outside literals: the quotes of the text are even in
number. -/
def IsOutside (text : List Char) : Prop := text.count '"' % 2 = 0

/-- A text of characters, closed literals and groups. -/
inductive WellNested : List Char → Prop
  | nil : WellNested []
  | mark {c : Char} {text : List Char} : c ≠ '"' → c ∉ brackets → WellNested text →
      WellNested (c :: text)
  | literal {body text : List Char} : '"' ∉ body → WellNested text →
      WellNested ('"' :: (body ++ '"' :: text))
  | group {kind : Bracket} {inner text : List Char} : WellNested inner → WellNested text →
      WellNested (kind.opener :: (inner ++ kind.closer :: text))

/-- A closing bracket behind a text has an open partner of its kind: what stands between
the two is well nested. -/
def HasPartner (kind : Bracket) (before : List Char) : Prop :=
  ∃ outer inner, before = outer ++ kind.opener :: inner ∧ IsOutside outer ∧ WellNested inner

/-- An opening bracket in front of a text is closed in it. -/
def IsClosed (kind : Bracket) (after : List Char) : Prop :=
  ∃ inner rest, after = inner ++ kind.closer :: rest ∧ WellNested inner

/-- Behind `before` stands a closing bracket that has no open partner, or one of the
other kind. -/
def StrayCloser (text before : List Char) : Prop :=
  IsOutside before ∧ ∃ kind after, text = before ++ Bracket.closer kind :: after ∧
    ¬ HasPartner kind before

/-- Behind `before` stands an opening bracket that is never closed. -/
def UnclosedOpener (text before : List Char) : Prop :=
  IsOutside before ∧ ∃ kind after, text = before ++ Bracket.opener kind :: after ∧
    ¬ IsClosed kind after

/-- The first of the places that have a property. -/
def IsFirst (p : List Char → Prop) (place : List Char) : Prop :=
  p place ∧ ∀ place', p place' → place.length ≤ place'.length

/-- The fault of a text, if it has one.  A literal that is never closed comes first, and
of the brackets those that close. -/
inductive Fault (text : List Char) : SchemaError → Prop
  /-- The quotes are odd in number; the last one is at fault. -/
  | quote {before after : List Char} : ¬ IsOutside text → text = before ++ '"' :: after →
      '"' ∉ after → Fault text (.missingClosingQuote (bytes before))
  | closer {before : List Char} : IsOutside text → IsFirst (StrayCloser text) before →
      Fault text (.unbalancedBrackets (bytes before))
  | opener {before : List Char} : IsOutside text → (∀ place, ¬ StrayCloser text place) →
      IsFirst (UnclosedOpener text) before → Fault text (.unbalancedBrackets (bytes before))

/-! ### Bytes and quotes -/

@[simp] theorem bytes_nil : bytes [] = 0 := rfl

@[simp] theorem bytes_append (a b : List Char) : bytes (a ++ b) = bytes a + bytes b := by
  rw [bytes, String.ofList_append, String.utf8ByteSize_append]
  rfl

@[simp] theorem bytes_cons (c : Char) (text : List Char) :
    bytes (c :: text) = c.utf8Size + bytes text := by
  rw [bytes, String.ofList_cons, String.utf8ByteSize_append, String.utf8ByteSize_singleton]
  rfl

theorem bytes_pos {text : List Char} (h : text ≠ []) : 0 < bytes text := by
  obtain ⟨c, rest, rfl⟩ := List.exists_cons_of_ne_nil h
  have hpos := c.utf8Size_pos
  rw [bytes_cons]
  omega

/-- The bytes in front of it tell a place of a text. -/
theorem eq_of_bytes_eq {a b a' b' : List Char} (h : a ++ b = a' ++ b')
    (hbytes : bytes a = bytes a') : a = a' ∧ b = b' := by
  rcases List.append_eq_append_iff.mp h with ⟨mid, rfl, hb⟩ | ⟨mid, rfl, hb⟩
  all_goals
    have hmid : mid = [] := by
      by_contra hne
      have hpos := bytes_pos hne
      rw [bytes_append] at hbytes
      omega
    subst hmid
    simp [hb]

theorem isOutside_nil : IsOutside [] := rfl

theorem IsOutside.append {a b : List Char} (ha : IsOutside a) :
    IsOutside (a ++ b) ↔ IsOutside b := by
  unfold IsOutside at *
  rw [List.count_append]
  omega

theorem isOutside_concat_of_ne {text : List Char} {c : Char} (hc : c ≠ '"') :
    IsOutside (text ++ [c]) ↔ IsOutside text := by
  rw [IsOutside, IsOutside, List.count_append, List.count_singleton]
  simp [hc]

theorem isOutside_concat_quote {text : List Char} :
    IsOutside (text ++ ['"']) ↔ ¬ IsOutside text := by
  rw [IsOutside, IsOutside, List.count_append, List.count_singleton_self]
  omega

theorem opener_ne_quote (kind : Bracket) : kind.opener ≠ '"' := by cases kind <;> decide

theorem closer_ne_quote (kind : Bracket) : kind.closer ≠ '"' := by cases kind <;> decide

theorem quote_notMem_brackets : '"' ∉ brackets := by decide

theorem WellNested.isOutside {text : List Char} (h : WellNested text) : IsOutside text := by
  induction h with
  | nil => rfl
  | mark hc _ _ ih =>
    rw [IsOutside, List.count_cons_of_ne hc]
    exact ih
  | literal hbody _ ih =>
    unfold IsOutside at *
    rw [List.count_cons_self, List.count_append, List.count_cons_self,
      List.count_eq_zero.mpr hbody]
    omega
  | group _ _ ih ih' =>
    unfold IsOutside at *
    rw [List.count_cons_of_ne (opener_ne_quote _), List.count_append,
      List.count_cons_of_ne (closer_ne_quote _)]
    omega

/-- Behind an opening bracket and a well-nested text one is outside as before. -/
theorem IsOutside.opener {outer inner : List Char} (h : IsOutside outer) (kind : Bracket)
    (hinner : WellNested inner) : IsOutside (outer ++ kind.opener :: inner) := by
  rw [h.append, IsOutside, List.count_cons_of_ne (opener_ne_quote kind)]
  exact hinner.isOutside

theorem WellNested.append {a b : List Char} (ha : WellNested a) (hb : WellNested b) :
    WellNested (a ++ b) := by
  induction ha with
  | nil => exact hb
  | mark hc hc' _ ih => exact .mark hc hc' ih
  | literal hbody _ ih => simpa using WellNested.literal hbody ih
  | group hinner _ _ ih => simpa using WellNested.group hinner ih

/-! ### What is open behind a text -/

/-- What is open once a bracket of a kind is closed, which must be that of the innermost
open one. -/
def close (kind : Bracket) (offset : Nat) :
    List (Bracket × Nat) → Except SchemaError (List (Bracket × Nat))
  | (kind', _) :: outer =>
    if kind' = kind then .ok outer else .error (.unbalancedBrackets offset)
  | [] => .error (.unbalancedBrackets offset)

/-- What is open behind one token more. -/
def advance (opened : List (Bracket × Nat)) : Token → Except SchemaError (List (Bracket × Nat))
  | .opening kind offset => .ok ((kind, offset) :: opened)
  | .closing kind offset => close kind offset opened
  | _ => .ok opened

/-- The open groups of a flat schema under construction, the innermost first: their kinds
and the offsets of their brackets. -/
def Assembly.openings (a : Assembly) : List (Bracket × Nat) :=
  a.groups.map fun group => (group.kind, group.offset)

@[simp] theorem Assembly.openings_emit (a : Assembly) (piece : List Char) :
    (a.emit piece).openings = a.openings := by
  unfold emit openings
  split
  · rfl
  · next h => rw [h]; rfl

theorem Assembly.openings_step (a : Assembly) (t : Token) :
    (a.step t).map openings = advance a.openings t := by
  cases t with
  | plain c => exact congrArg Except.ok (a.openings_emit [c])
  | literal text => exact congrArg Except.ok (Assembly.openings_emit _ _)
  | opening kind offset => rfl
  | closing kind offset =>
    cases h : a.groups with
    | nil => simp [step, advance, openings, close, h, Except.map]
    | cons group outer =>
      by_cases hkind : group.kind = kind
      · simp only [step, advance, h, hkind, if_true, Except.map, Assembly.openings_emit]
        simp [openings, close, h, hkind]
      · simp [step, advance, openings, close, h, hkind, Except.map]

/-- The token that a reader is led to by one character more, if it is. -/
def Reader.added (r : Reader) (c : Char) : Option Token :=
  match r.literal with
  | some (_, body) => if c = '"' then some (.literal body.reverse) else none
  | none => if c = '"' then none else Token.ofChar? c r.offset

theorem Reader.tokens_step (r : Reader) (c : Char) :
    (r.step c).tokens = (r.added c).toList ++ r.tokens := by
  by_cases hc : c = '"' <;> cases hl : r.literal <;> simp [step, added, hc, hl]

theorem Reader.offset_step (r : Reader) (c : Char) : (r.step c).offset = r.offset + c.utf8Size := by
  unfold step
  split <;> split <;> rfl

/-- The reader behind a text. -/
def readUpTo (text : List Char) : Reader := ({} : Reader).run text

theorem readUpTo_concat (text : List Char) (c : Char) :
    readUpTo (text ++ [c]) = (readUpTo text).step c :=
  Reader.run_append _ _ _

theorem offset_readUpTo (text : List Char) : (readUpTo text).offset = bytes text := by
  induction text using List.reverseRecOn with
  | nil => rfl
  | append_singleton text c ih =>
    rw [readUpTo_concat, Reader.offset_step, ih, bytes_append, bytes_cons, bytes_nil, Nat.add_zero]

/-- **A reader is inside a literal if the quotes are odd in number**, and the literal
begins at the last one. -/
theorem readUpTo_cases (text : List Char) :
    (IsOutside text ∧ (readUpTo text).literal = none) ∨
      ∃ before body, text = before ++ '"' :: body ∧ '"' ∉ body ∧ IsOutside before ∧
        (readUpTo text).literal = some (bytes before, body.reverse) := by
  induction text using List.reverseRecOn with
  | nil => exact .inl ⟨rfl, rfl⟩
  | append_singleton text c ih =>
    rw [readUpTo_concat, Reader.step]
    by_cases hc : c = '"'
    · subst hc
      rcases ih with ⟨hout, hl⟩ | ⟨before, body, rfl, hbody, hout, hl⟩
      · refine .inr ⟨text, [], rfl, List.not_mem_nil, hout, ?_⟩
        simp only [hl, if_true, offset_readUpTo]
        rfl
      · refine .inl ⟨?_, by simp only [hl, if_true]⟩
        rw [List.append_assoc, hout.append, IsOutside, List.count_append,
          List.count_cons_self, List.count_eq_zero.mpr hbody]
        rfl
    · rcases ih with ⟨hout, hl⟩ | ⟨before, body, rfl, hbody, hout, hl⟩
      · refine .inl ⟨(isOutside_concat_of_ne hc).mpr hout, ?_⟩
        simp only [hl, if_neg hc]
      · refine .inr ⟨before, body ++ [c], by simp, by simp [hbody, Ne.symm hc], hout, ?_⟩
        simp only [hl, if_neg hc, List.reverse_concat]

theorem literal_of_isOutside {text : List Char} (h : IsOutside text) :
    (readUpTo text).literal = none := by
  rcases readUpTo_cases text with ⟨-, hl⟩ | ⟨before, body, rfl, hbody, hout, -⟩
  · exact hl
  · rw [hout.append, IsOutside, List.count_cons_self, List.count_eq_zero.mpr hbody] at h
    cases h

/-- What is open behind a text, the innermost bracket first, each with the bytes in front
of it; fails if a closing bracket of the text has no partner. -/
def openBrackets (text : List Char) : Except SchemaError (List (Bracket × Nat)) :=
  (({} : Assembly).run (readUpTo text).tokens.reverse).map Assembly.openings

theorem openBrackets_concat (text : List Char) (c : Char) :
    openBrackets (text ++ [c]) =
      match (readUpTo text).added c with
      | none => openBrackets text
      | some t => (openBrackets text).bind (advance · t) := by
  rw [openBrackets, readUpTo_concat, Reader.tokens_step]
  cases (readUpTo text).added c with
  | none => rfl
  | some t =>
    rw [Option.toList_some, List.singleton_append, List.reverse_cons, Assembly.run_append,
      openBrackets]
    cases ({} : Assembly).run (readUpTo text).tokens.reverse with
    | error e => rfl
    | ok a =>
      show ((a.step t).bind fun a => .ok a).map Assembly.openings = advance a.openings t
      rw [← a.openings_step]
      cases a.step t <;> rfl

/-- An opening bracket is open behind itself. -/
theorem openBrackets_opener {text : List Char} (h : IsOutside text) (kind : Bracket) :
    openBrackets (text ++ [kind.opener]) =
      (openBrackets text).map ((kind, bytes text) :: ·) := by
  have hadded : (readUpTo text).added kind.opener = some (.opening kind (bytes text)) := by
    rw [Reader.added, literal_of_isOutside h, offset_readUpTo]
    cases kind <;> rfl
  rw [openBrackets_concat, hadded]
  cases openBrackets text <;> rfl

/-- A closing bracket closes the innermost open one. -/
theorem openBrackets_closer {text : List Char} (h : IsOutside text) (kind : Bracket) :
    openBrackets (text ++ [kind.closer]) =
      (openBrackets text).bind (close kind (bytes text)) := by
  have hadded : (readUpTo text).added kind.closer = some (.closing kind (bytes text)) := by
    rw [Reader.added, literal_of_isOutside h, offset_readUpTo]
    cases kind <;> rfl
  rw [openBrackets_concat, hadded]
  rfl

/-- Inside a literal nothing is opened or closed, and outside only by brackets. -/
theorem openBrackets_concat_of {text : List Char} {c : Char}
    (h : ¬ IsOutside text ∨ c ∉ brackets) : openBrackets (text ++ [c]) = openBrackets text := by
  have hadded : (readUpTo text).added c = none ∨
      ∃ t, (readUpTo text).added c = some t ∧ ∀ opened, advance opened t = .ok opened := by
    rw [Reader.added]
    rcases readUpTo_cases text with ⟨hout, hl⟩ | ⟨before, body, -, -, -, hl⟩
    · rw [hl]
      have hc : c ∉ brackets := h.resolve_left (not_not_intro hout)
      by_cases hquote : c = '"'
      · exact .inl (if_pos hquote)
      · simp only [if_neg hquote]
        cases ht : Token.ofChar? c (readUpTo text).offset with
        | none => exact .inl rfl
        | some t =>
          rcases ofChar?_cases ht with ⟨kind, rfl, -⟩ | ⟨kind, rfl, -⟩ | ⟨-, rfl⟩
          · exact absurd (opener_mem kind) hc
          · exact absurd (closer_mem kind) hc
          · exact .inr ⟨_, rfl, fun _ => rfl⟩
    · rw [hl]
      by_cases hquote : c = '"'
      · exact .inr ⟨_, if_pos hquote, fun _ => rfl⟩
      · exact .inl (if_neg hquote)
  rw [openBrackets_concat]
  obtain hnone | ⟨t, ht, hadvance⟩ := hadded
  · rw [hnone]
  · simp only [ht, hadvance]
    cases openBrackets text <;> rfl

/-- What fails goes on failing. -/
theorem openBrackets_append_error {text : List Char} {e : SchemaError}
    (h : openBrackets text = .error e) (more : List Char) :
    openBrackets (text ++ more) = .error e := by
  induction more using List.reverseRecOn with
  | nil => rwa [List.append_nil]
  | append_singleton more c ih =>
    rw [← List.append_assoc, openBrackets_concat, ih]
    cases (readUpTo (text ++ more)).added c <;> rfl

/-- In front of a place that is reached, nothing has failed. -/
theorem exists_openBrackets {text more : List Char} {opened : List (Bracket × Nat)}
    (h : openBrackets (text ++ more) = .ok opened) : ∃ before, openBrackets text = .ok before := by
  cases htext : openBrackets text with
  | ok before => exact ⟨before, rfl⟩
  | error e =>
    rw [openBrackets_append_error htext more] at h
    cases h

/-- A literal opens nothing and closes nothing, be it closed or not. -/
theorem openBrackets_literal {text : List Char} (h : IsOutside text) {body : List Char}
    (hbody : '"' ∉ body) : openBrackets (text ++ '"' :: body) = openBrackets text ∧
      ¬ IsOutside (text ++ '"' :: body) := by
  induction body using List.reverseRecOn with
  | nil =>
    exact ⟨openBrackets_concat_of (.inr quote_notMem_brackets),
      fun hout => isOutside_concat_quote.mp hout h⟩
  | append_singleton body c ih =>
    rw [List.mem_append, List.mem_singleton, not_or] at hbody
    obtain ⟨hsame, hinside⟩ := ih hbody.1
    have hsplit : text ++ '"' :: (body ++ [c]) = (text ++ '"' :: body) ++ [c] := by simp
    rw [hsplit, openBrackets_concat_of (.inl hinside),
      isOutside_concat_of_ne (Ne.symm hbody.2)]
    exact ⟨hsame, hinside⟩

/-- What is well nested behind an opening bracket leaves the bracket open, if it does so
with everything. -/
theorem openBrackets_inner {outer inner : List Char} (h : IsOutside outer) (kind : Bracket)
    (hsame : ∀ {text : List Char}, IsOutside text →
      openBrackets (text ++ inner) = openBrackets text) :
    openBrackets (outer ++ kind.opener :: inner) =
      (openBrackets outer).map ((kind, bytes outer) :: ·) := by
  have hopen : IsOutside (outer ++ [kind.opener]) :=
    (isOutside_concat_of_ne (opener_ne_quote kind)).mpr h
  rw [← List.singleton_append, ← List.append_assoc, hsame hopen, openBrackets_opener h]

/-- **A well-nested text leaves what is open as it was.** -/
theorem openBrackets_append {text more : List Char} (h : IsOutside text)
    (hmore : WellNested more) : openBrackets (text ++ more) = openBrackets text := by
  induction hmore generalizing text with
  | nil => rw [List.append_nil]
  | @mark c more hquote hc _ ih =>
    rw [← List.singleton_append, ← List.append_assoc,
      ih ((isOutside_concat_of_ne hquote).mpr h), openBrackets_concat_of (.inr hc)]
  | @literal body more hbody _ ih =>
    obtain ⟨hsame, hinside⟩ := openBrackets_literal h hbody
    have hsplit : text ++ '"' :: (body ++ '"' :: more) =
        (text ++ '"' :: body ++ ['"']) ++ more := by simp
    rw [hsplit, ih (isOutside_concat_quote.mpr hinside),
      openBrackets_concat_of (.inl hinside), hsame]
  | @group kind inner more hinner _ ih ih' =>
    have hopen := h.opener kind hinner
    have hsplit : text ++ kind.opener :: (inner ++ kind.closer :: more) =
        (text ++ kind.opener :: inner ++ [kind.closer]) ++ more := by simp
    rw [hsplit, ih' ((isOutside_concat_of_ne (closer_ne_quote kind)).mpr hopen),
      openBrackets_closer hopen, openBrackets_inner h kind ih]
    cases openBrackets text with
    | error e => rfl
    | ok opened => exact if_pos rfl

/-- Nothing is open behind a well-nested text. -/
theorem openBrackets_of_wellNested {text : List Char} (h : WellNested text) :
    openBrackets text = .ok [] :=
  (openBrackets_append isOutside_nil h : openBrackets ([] ++ text) = openBrackets [])

/-- What one character more does to what is open. -/
inductive Shifts (text : List Char) (opened : List (Bracket × Nat)) :
    Char → List (Bracket × Nat) → Prop
  | stays {c : Char} : ¬ IsOutside text ∨ c ∉ brackets → Shifts text opened c opened
  | opens (kind : Bracket) : IsOutside text →
      Shifts text opened kind.opener ((kind, bytes text) :: opened)
  | closes {kind : Bracket} {offset : Nat} {outer : List (Bracket × Nat)} : IsOutside text →
      opened = (kind, offset) :: outer → Shifts text opened kind.closer outer

theorem exists_kind_of_mem_brackets {c : Char} (h : c ∈ brackets) :
    ∃ kind : Bracket, c = kind.opener ∨ c = kind.closer := by
  simp only [brackets, List.mem_cons, List.not_mem_nil, or_false] at h
  rcases h with rfl | rfl | rfl | rfl
  · exact ⟨.square, .inl rfl⟩
  · exact ⟨.curly, .inl rfl⟩
  · exact ⟨.square, .inr rfl⟩
  · exact ⟨.curly, .inr rfl⟩

theorem close_eq_ok {kind : Bracket} {offset : Nat} {opened outer : List (Bracket × Nat)}
    (h : close kind offset opened = .ok outer) : ∃ start, opened = (kind, start) :: outer := by
  unfold close at h
  split at h
  · next kind' start rest =>
    by_cases hkind : kind' = kind
    · rw [if_pos hkind] at h
      exact ⟨start, by rw [hkind, Except.ok.inj h]⟩
    · rw [if_neg hkind] at h
      cases h
  · cases h

/-- **One character more** opens a bracket, closes the innermost one, or does neither. -/
theorem shifts_of_openBrackets {text : List Char} {c : Char} {later : List (Bracket × Nat)}
    (h : openBrackets (text ++ [c]) = .ok later) :
    ∃ opened, openBrackets text = .ok opened ∧ Shifts text opened c later := by
  obtain ⟨opened, hopened⟩ := exists_openBrackets h
  refine ⟨opened, hopened, ?_⟩
  by_cases hstays : ¬ IsOutside text ∨ c ∉ brackets
  · rw [openBrackets_concat_of hstays, hopened] at h
    rw [← Except.ok.inj h]
    exact .stays hstays
  · obtain ⟨hout, hc⟩ := not_or.mp hstays
    obtain ⟨kind, rfl | rfl⟩ := exists_kind_of_mem_brackets (not_not.mp hc)
    · rw [openBrackets_opener (not_not.mp hout), hopened] at h
      rw [← Except.ok.inj h]
      exact .opens kind (not_not.mp hout)
    · rw [openBrackets_closer (not_not.mp hout), hopened] at h
      obtain ⟨offset, hclosed⟩ := close_eq_ok h
      exact .closes (not_not.mp hout) hclosed

/-! ### What a text has left open -/

/-- What a text has left open: it is well nested, but for the brackets that are open. -/
inductive Pending : List Char → List (Bracket × Nat) → Prop
  | root {text : List Char} : WellNested text → Pending text []
  | group {outer inner : List Char} {kind : Bracket} {opened : List (Bracket × Nat)} :
      Pending outer opened → WellNested inner →
      Pending (outer ++ kind.opener :: inner) ((kind, bytes outer) :: opened)

theorem Pending.isOutside {text : List Char} {opened : List (Bracket × Nat)}
    (h : Pending text opened) : IsOutside text := by
  induction h with
  | root h => exact h.isOutside
  | group _ hinner ih => exact ih.opener _ hinner

theorem Pending.append {text more : List Char} {opened : List (Bracket × Nat)}
    (h : Pending text opened) (hmore : WellNested more) : Pending (text ++ more) opened := by
  cases h with
  | root h => exact .root (h.append hmore)
  | group h hinner =>
    rw [List.append_assoc, List.cons_append]
    exact .group h (hinner.append hmore)

/-- Closing the innermost bracket leaves open what is open in front of it. -/
theorem Pending.close {text : List Char} {kind : Bracket} {offset : Nat}
    {opened : List (Bracket × Nat)} (h : Pending text ((kind, offset) :: opened)) :
    Pending (text ++ [kind.closer]) opened := by
  cases h with
  | @group outer inner _ _ h hinner =>
    rw [List.append_assoc, List.cons_append]
    exact h.append (.group hinner .nil)

/-- The innermost open bracket, and the well-nested text behind it. -/
theorem Pending.exists_inner {text : List Char} {kind : Bracket} {offset : Nat}
    {opened : List (Bracket × Nat)} (h : Pending text ((kind, offset) :: opened)) :
    ∃ outer inner, text = outer ++ kind.opener :: inner ∧ offset = bytes outer ∧
      IsOutside outer ∧ WellNested inner := by
  cases h with
  | @group outer inner _ _ h hinner => exact ⟨outer, inner, rfl, rfl, h.isOutside, hinner⟩

/-- The outermost open bracket, and the well-nested text in front of it. -/
theorem Pending.exists_outer {text : List Char} {opened : List (Bracket × Nat)}
    (h : Pending text opened) : (opened = [] ∧ WellNested text) ∨
      ∃ outer kind rest, text = outer ++ Bracket.opener kind :: rest ∧ WellNested outer ∧
        opened.getLast? = some (kind, bytes outer) := by
  induction h with
  | root h => exact .inl ⟨rfl, h⟩
  | @group outer inner kind opened _ _ ih =>
    refine .inr ?_
    rcases ih with ⟨rfl, hnested⟩ | ⟨first, kind', rest, rfl, hnested, hlast⟩
    · exact ⟨outer, kind, inner, rfl, hnested, rfl⟩
    · refine ⟨first, kind', rest ++ kind.opener :: inner, by simp, hnested, ?_⟩
      rw [List.getLast?_cons, hlast]
      rfl

/-- **What is open behind a text is what the text has left open**, a literal that is not
closed aside. -/
theorem exists_pending {text : List Char} {opened : List (Bracket × Nat)}
    (h : openBrackets text = .ok opened) :
    ∃ before tail, text = before ++ tail ∧ IsLeftOver tail ∧ Pending before opened := by
  induction text using List.reverseRecOn generalizing opened with
  | nil =>
    obtain rfl : [] = opened := Except.ok.inj h
    exact ⟨[], [], rfl, .inl rfl, .root .nil⟩
  | append_singleton text c ih =>
    obtain ⟨earlier, hearlier, hshifts⟩ := shifts_of_openBrackets h
    obtain ⟨before, tail, rfl, htail, hpending⟩ := ih hearlier
    have hout := hpending.isOutside
    rcases htail with rfl | ⟨body, rfl, hbody⟩
    · rw [List.append_nil] at hshifts ⊢
      cases hshifts with
      | stays hstays =>
        by_cases hquote : c = '"'
        · subst hquote
          exact ⟨before, ['"'], rfl, .inr ⟨[], rfl, List.not_mem_nil⟩, hpending⟩
        · have hc : c ∉ brackets := hstays.resolve_left (not_not_intro hout)
          exact ⟨before ++ [c], [], by simp, .inl rfl, hpending.append (.mark hquote hc .nil)⟩
      | opens kind _ => exact ⟨before ++ [kind.opener], [], by simp, .inl rfl, .group hpending .nil⟩
      | @closes kind _ _ _ hclosed =>
        subst hclosed
        exact ⟨before ++ [kind.closer], [], by simp, .inl rfl, hpending.close⟩
    · -- inside a literal only its quote counts
      have hinside : ¬ IsOutside (before ++ '"' :: body) := (openBrackets_literal hout hbody).2
      cases hshifts with
      | stays _ =>
        by_cases hquote : c = '"'
        · subst hquote
          have hclosed := hpending.append (.literal hbody .nil)
          exact ⟨before ++ '"' :: (body ++ ['"']), [], by simp, .inl rfl, hclosed⟩
        · refine ⟨before, '"' :: (body ++ [c]), by simp, .inr ⟨body ++ [c], rfl, ?_⟩, hpending⟩
          simp [hbody, Ne.symm hquote]
      | opens _ hout' => exact absurd hout' hinside
      | closes hout' _ => exact absurd hout' hinside

theorem pending_of_isOutside {text : List Char} {opened : List (Bracket × Nat)}
    (h : openBrackets text = .ok opened) (hout : IsOutside text) : Pending text opened := by
  obtain ⟨before, tail, rfl, rfl | ⟨body, rfl, hbody⟩, hpending⟩ := exists_pending h
  · rwa [List.append_nil]
  · exact absurd hout (openBrackets_literal hpending.isOutside hbody).2

/-- **An opening bracket is closed, or it stays open.** -/
theorem isClosed_or_mem {before after : List Char} {kind : Bracket}
    {opened : List (Bracket × Nat)} (hout : IsOutside before)
    (h : openBrackets (before ++ kind.opener :: after) = .ok opened) :
    IsClosed kind after ∨ (kind, bytes before) ∈ opened := by
  induction after using List.reverseRecOn generalizing opened with
  | nil =>
    obtain ⟨earlier, hearlier⟩ := exists_openBrackets h
    rw [openBrackets_opener hout, hearlier] at h
    exact .inr (Except.ok.inj h ▸ List.mem_cons_self)
  | append_singleton after c ih =>
    have hsplit : before ++ kind.opener :: (after ++ [c]) =
        (before ++ kind.opener :: after) ++ [c] := by simp
    rw [hsplit] at h
    obtain ⟨earlier, hearlier, hshifts⟩ := shifts_of_openBrackets h
    rcases ih hearlier with ⟨inner, rest, rfl, hinner⟩ | hmem
    · exact .inl ⟨inner, rest ++ [c], by simp, hinner⟩
    · cases hshifts with
      | stays _ => exact .inr hmem
      | opens _ _ => exact .inr (List.mem_cons_of_mem _ hmem)
      | @closes kind' offset _ hout' hclosed =>
        subst hclosed
        rcases List.mem_cons.mp hmem with he | hmem
        · -- the bracket is the one that is closed, and all behind it is well nested
          obtain ⟨rfl, rfl⟩ := Prod.mk.inj he
          obtain ⟨outer, inner, htext, hbytes, -, hinner⟩ :=
            (pending_of_isOutside hearlier hout').exists_inner
          obtain ⟨-, hafter⟩ := eq_of_bytes_eq htext hbytes
          obtain rfl := (List.cons.inj hafter).2
          exact .inl ⟨after, [], rfl, hinner⟩
        · exact .inr hmem

/-- What is open behind a text was open before or has been opened since. -/
theorem mem_or_bytes_le {text more : List Char} {opened later : List (Bracket × Nat)}
    (h : openBrackets text = .ok opened) (hlater : openBrackets (text ++ more) = .ok later) :
    ∀ b ∈ later, b ∈ opened ∨ bytes text ≤ b.2 := by
  induction more using List.reverseRecOn generalizing later with
  | nil =>
    rw [List.append_nil, h] at hlater
    exact fun b hb => .inl (Except.ok.inj hlater ▸ hb)
  | append_singleton more c ih =>
    rw [← List.append_assoc] at hlater
    obtain ⟨earlier, hearlier, hshifts⟩ := shifts_of_openBrackets hlater
    cases hshifts with
    | stays _ => exact ih hearlier
    | opens kind _ =>
      refine List.forall_mem_cons.mpr ⟨.inr ?_, ih hearlier⟩
      rw [bytes_append]
      exact Nat.le_add_right _ _
    | closes _ hclosed =>
      subst hclosed
      exact fun b hb => ih hearlier b (List.mem_cons_of_mem _ hb)

/-! ### The place of a fault -/

theorem StrayCloser.append {text before : List Char} (h : StrayCloser text before)
    (more : List Char) : StrayCloser (text ++ more) before := by
  obtain ⟨hout, kind, after, rfl, hpartner⟩ := h
  exact ⟨hout, kind, after ++ more, by simp, hpartner⟩

theorem StrayCloser.length_lt {text before : List Char} (h : StrayCloser text before) :
    before.length < text.length := by
  obtain ⟨-, kind, after, rfl, -⟩ := h
  simp

/-- A closing bracket with a partner closes it. -/
theorem HasPartner.close_eq {kind : Bracket} {text : List Char} (h : HasPartner kind text)
    {opened : List (Bracket × Nat)} (hopened : openBrackets text = .ok opened) (offset : Nat) :
    ∃ outer, close kind offset opened = .ok outer := by
  obtain ⟨outer, inner, rfl, hout, hinner⟩ := h
  rw [openBrackets_inner hout kind fun h => openBrackets_append h hinner] at hopened
  cases houter : openBrackets outer with
  | error e =>
    rw [houter] at hopened
    cases hopened
  | ok around =>
    rw [houter] at hopened
    rw [← Except.ok.inj hopened]
    exact ⟨around, if_pos rfl⟩

/-- If every closing bracket has a partner, nothing fails. -/
theorem exists_openBrackets_of_forall {text : List Char}
    (h : ∀ place, ¬ StrayCloser text place) : ∃ opened, openBrackets text = .ok opened := by
  induction text using List.reverseRecOn with
  | nil => exact ⟨[], rfl⟩
  | append_singleton text c ih =>
    obtain ⟨opened, hopened⟩ := ih fun place hstray => h place (hstray.append [c])
    by_cases hstays : ¬ IsOutside text ∨ c ∉ brackets
    · exact ⟨opened, (openBrackets_concat_of hstays).trans hopened⟩
    · obtain ⟨hout, hc⟩ := not_or.mp hstays
      have hout := not_not.mp hout
      obtain ⟨kind, rfl | rfl⟩ := exists_kind_of_mem_brackets (not_not.mp hc)
      · rw [openBrackets_opener hout, hopened]
        exact ⟨_, rfl⟩
      · have hpartner : HasPartner kind text := by
          by_contra hnot
          exact h text ⟨hout, kind, [], rfl, hnot⟩
        rw [openBrackets_closer hout, hopened]
        exact hpartner.close_eq hopened _

/-- **The first closing bracket without a partner is where it fails.** -/
theorem openBrackets_of_strayCloser {text before : List Char}
    (h : IsFirst (StrayCloser text) before) :
    openBrackets text = .error (.unbalancedBrackets (bytes before)) := by
  obtain ⟨⟨hout, kind, after, rfl, hpartner⟩, hfirst⟩ := h
  have hbefore : ∀ place, ¬ StrayCloser before place := fun place hstray =>
    absurd (hfirst place (hstray.append _)) (Nat.not_le.mpr hstray.length_lt)
  obtain ⟨opened, hopened⟩ := exists_openBrackets_of_forall hbefore
  have hfails : openBrackets (before ++ [kind.closer]) =
      .error (.unbalancedBrackets (bytes before)) := by
    rw [openBrackets_closer hout, hopened]
    show close kind (bytes before) opened = _
    unfold close
    split
    · next kind' offset rest =>
      refine if_neg fun hkind => hpartner ?_
      obtain ⟨outer, inner, htext, -, houter, hinner⟩ :=
        (pending_of_isOutside hopened hout).exists_inner
      exact ⟨outer, inner, hkind ▸ htext, houter, hinner⟩
    · rfl
  rw [← List.singleton_append, ← List.append_assoc]
  exact openBrackets_append_error hfails after

/-- A well-nested text closes every bracket that it opens. -/
theorem WellNested.isClosed {before after : List Char} {kind : Bracket}
    (h : WellNested (before ++ kind.opener :: after)) (hout : IsOutside before) :
    IsClosed kind after := by
  exact (isClosed_or_mem hout (openBrackets_of_wellNested h)).resolve_right List.not_mem_nil

/-- The outermost bracket that is open behind a text is never closed in it. -/
theorem not_isClosed_of_getLast? {outer rest : List Char} {kind : Bracket}
    {opened : List (Bracket × Nat)} (houter : WellNested outer)
    (h : openBrackets (outer ++ kind.opener :: rest) = .ok opened)
    (hlast : opened.getLast? = some (kind, bytes outer)) : ¬ IsClosed kind rest := by
  rintro ⟨inner, after, rfl, hinner⟩
  -- nothing would be open behind its partner, so that all that is open began behind it
  have hgroup : WellNested (outer ++ kind.opener :: (inner ++ [kind.closer])) :=
    houter.append (.group hinner .nil)
  have hsplit : outer ++ kind.opener :: (inner ++ kind.closer :: after) =
      (outer ++ kind.opener :: (inner ++ [kind.closer])) ++ after := by simp
  rw [hsplit] at h
  rcases mem_or_bytes_le (openBrackets_of_wellNested hgroup) h _
    (List.mem_of_getLast? hlast) with hmem | hle
  · cases hmem
  · have hpos := kind.opener.utf8Size_pos
    rw [bytes_append, bytes_cons] at hle
    omega

/-- A text is well nested, or the outermost bracket that is open behind it is never closed. -/
theorem wellNested_or_unclosed {text : List Char} {opened : List (Bracket × Nat)}
    (hout : IsOutside text) (hopened : openBrackets text = .ok opened) :
    WellNested text ∨ ∃ outer kind rest, text = outer ++ Bracket.opener kind :: rest ∧
      WellNested outer ∧ UnclosedOpener text outer ∧
      opened.getLast? = some (kind, bytes outer) := by
  rcases (pending_of_isOutside hopened hout).exists_outer with
    ⟨-, hnested⟩ | ⟨outer, kind, rest, htext, houter, hlast⟩
  · exact .inl hnested
  · have hnot := not_isClosed_of_getLast? houter (htext ▸ hopened) hlast
    exact .inr ⟨outer, kind, rest, htext, houter, ⟨houter.isOutside, kind, rest, htext, hnot⟩,
      hlast⟩

/-- **The earliest bracket that is never closed is the outermost one that is open.** -/
theorem getLast?_of_unclosedOpener {text before : List Char} {opened : List (Bracket × Nat)}
    (hout : IsOutside text) (hopened : openBrackets text = .ok opened)
    (h : IsFirst (UnclosedOpener text) before) :
    ∃ kind, opened.getLast? = some (kind, bytes before) := by
  obtain ⟨⟨hbefore, kind, after, htext, hnot⟩, hfirst⟩ := h
  rcases wellNested_or_unclosed hout hopened with
    hnested | ⟨outer, kind', rest, htext', houter, hunclosed, hlast⟩
  · exact absurd ((htext ▸ hnested).isClosed hbefore) hnot
  · have hle := hfirst outer hunclosed
    rcases append_cons_cases (htext.symm.trans htext') with
      ⟨rfl, -, -⟩ | ⟨mid, rfl, rfl⟩ | ⟨mid, rfl, -⟩
    · exact ⟨kind', hlast⟩
    · -- an earlier bracket would be closed in the well-nested text
      obtain ⟨inner, more, rfl, hinner⟩ := houter.isClosed hbefore
      exact absurd ⟨inner, more ++ kind'.opener :: rest, by simp, hinner⟩ hnot
    · rw [List.length_append, List.length_cons] at hle
      omega

/-! ### Flattening -/

theorem tokenize_eq (text : List Char) : tokenize text =
    match (readUpTo text).literal with
    | some (start, _) => .error (.missingClosingQuote start)
    | none => .ok (readUpTo text).tokens.reverse := rfl

/-- A text whose quotes are odd in number fails at the last one. -/
theorem flatten_of_not_isOutside {text : String} {before after : List Char}
    (h : ¬ IsOutside text.toList) (htext : text.toList = before ++ '"' :: after)
    (hafter : '"' ∉ after) : flatten text = .error (.missingClosingQuote (bytes before)) := by
  rcases readUpTo_cases text.toList with ⟨hout, -⟩ | ⟨before', body, htext', hbody, -, hl⟩
  · exact absurd hout h
  · have hsame : before' = before := by
      rcases append_cons_cases (htext'.symm.trans htext) with
        ⟨hsame, -, -⟩ | ⟨mid, -, rfl⟩ | ⟨mid, -, rfl⟩
      · exact hsame
      · exact absurd (by simp) hbody
      · exact absurd (by simp) hafter
    have htokens : tokenize text.toList = .error (.missingClosingQuote (bytes before)) := by
      rw [tokenize_eq, hl, hsame]
    rw [flatten, htokens]
    rfl

theorem flatten_of_isOutside {text : String} (h : IsOutside text.toList) :
    flatten text = (({} : Assembly).run (readUpTo text.toList).tokens.reverse).bind
      Assembly.finish := by
  have htokens : tokenize text.toList = .ok (readUpTo text.toList).tokens.reverse := by
    rw [tokenize_eq, literal_of_isOutside h]
  rw [flatten, htokens]
  rfl

/-- **What is open behind the whole text decides**, and the outermost bracket is at fault. -/
theorem flatten_of_openBrackets {text : String} (h : IsOutside text.toList) :
    match openBrackets text.toList with
    | .error e => flatten text = .error e
    | .ok opened =>
      match opened.getLast? with
      | some (_, offset) => flatten text = .error (.unbalancedBrackets offset)
      | none => ∃ s, flatten text = .ok s := by
  rw [flatten_of_isOutside h, openBrackets]
  cases ({} : Assembly).run (readUpTo text.toList).tokens.reverse with
  | error e => rfl
  | ok a =>
    simp only [Except.map, Except.bind, Assembly.openings, List.getLast?_map, Assembly.finish]
    cases a.groups.getLast? with
    | some group => rfl
    | none => exact ⟨_, rfl⟩

theorem flatten_eq_error_of_fault {text : String} {e : SchemaError} (h : Fault text.toList e) :
    flatten text = .error e := by
  cases h with
  | quote hodd htext hafter => exact flatten_of_not_isOutside hodd htext hafter
  | closer hout hfirst =>
    have hdecides := flatten_of_openBrackets hout
    rwa [openBrackets_of_strayCloser hfirst] at hdecides
  | opener hout hnone hfirst =>
    obtain ⟨opened, hopened⟩ := exists_openBrackets_of_forall hnone
    obtain ⟨kind, hlast⟩ := getLast?_of_unclosedOpener hout hopened hfirst
    have hdecides := flatten_of_openBrackets hout
    rw [hopened] at hdecides
    simpa only [hlast] using hdecides

theorem exists_flatten_of_wellNested {text : String} (h : WellNested text.toList) :
    ∃ s, flatten text = .ok s := by
  have hdecides := flatten_of_openBrackets h.isOutside
  rwa [openBrackets_of_wellNested h] at hdecides

/-- Of the places that have a property, if there are any, there is a first one. -/
theorem exists_isFirst {p : List Char → Prop} (h : ∃ place, p place) :
    ∃ place, IsFirst p place := by
  obtain ⟨first, hfirst, hleast⟩ := (measure List.length).wf.has_min {place | p place} h
  exact ⟨first, hfirst, fun place hplace => Nat.not_lt.mp (hleast place hplace)⟩

/-- **A text has a fault, or it is well nested.** -/
theorem exists_fault (text : List Char) : (∃ e, Fault text e) ∨ WellNested text := by
  by_cases hout : IsOutside text
  · by_cases hstray : ∃ place, StrayCloser text place
    · obtain ⟨before, hfirst⟩ := exists_isFirst hstray
      exact .inl ⟨_, .closer hout hfirst⟩
    · have hnone := not_exists.mp hstray
      obtain ⟨opened, hopened⟩ := exists_openBrackets_of_forall hnone
      rcases wellNested_or_unclosed hout hopened with hnested | ⟨outer, _, _, -, -, hunclosed, -⟩
      · exact .inr hnested
      · obtain ⟨before, hfirst⟩ := exists_isFirst ⟨outer, hunclosed⟩
        exact .inl ⟨_, .opener hout hnone hfirst⟩
  · rcases readUpTo_cases text with ⟨h, -⟩ | ⟨before, body, htext, hbody, -, -⟩
    · exact absurd h hout
    · exact .inl ⟨_, .quote hout htext hbody⟩

/-- **Flattening fails exactly with the fault of the text, at its place**, and it succeeds
exactly if the text, outside its literals, is well nested. -/
theorem flatten_eq_error_iff (text : String) :
    (∀ e, flatten text = .error e ↔ Fault text.toList e) ∧
      ((∃ s, flatten text = .ok s) ↔ WellNested text.toList) := by
  refine ⟨fun e => ⟨fun h => ?_, flatten_eq_error_of_fault⟩, fun ⟨s, h⟩ => ?_,
    exists_flatten_of_wellNested⟩
  · rcases exists_fault text.toList with ⟨e', hfault⟩ | hnested
    · rw [flatten_eq_error_of_fault hfault] at h
      exact Except.error.inj h ▸ hfault
    · obtain ⟨s, hs⟩ := exists_flatten_of_wellNested hnested
      rw [hs] at h
      cases h
  · refine (exists_fault text.toList).resolve_left fun ⟨e, hfault⟩ => ?_
    rw [flatten_eq_error_of_fault hfault] at h
    cases h

-- a literal that is not closed comes before a bracket that is, and places are counted in bytes
example : flatten "é]\x7b\"a" = .error (.missingClosingQuote 4) := by decide +kernel

end TerseSchema
