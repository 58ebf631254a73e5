import TerseSchema.Proofs.Pieces
import TerseSchema.Proofs.RoundTrip

/-!
# The outline of a text

The pieces of a text say which terms an author wrote and where: a group that stands for
itself, behind an optional mark or not, is a term of other terms, and all other pieces
between commas, or behind the colon of a name, are scalars.  This is said of the pieces,
before any number is put in for a group, and what is read from the flat form is compared
with it.

## Main definitions

* `Piece.unmark`, `Piece.items`, `Piece.fields` — how pieces are taken apart.
* `Outline`, `outline` — the terms as they are written.

## Main results

* `Piece.term_induct` — induction over the terms of a text.
* `Term.parse_flatText`, `Group.parse_recorded` — **the flat form is taken apart where the
  pieces are.**
-/

namespace TerseSchema

namespace Piece

/-! ### Taking pieces apart -/

/-- Whether a piece is a character. -/
def isMark (c : Char) : Piece → Bool
  | .mark d _ => d = c
  | _ => false

/-- The optional mark of a term, and what stands behind it. -/
def unmark : List Piece → Bool × List Piece
  | [] => (false, [])
  | p :: ps => if p.isMark '?' then (true, ps) else (false, p :: ps)

/-- The items between commas. -/
def items (body : List Piece) : List (List Piece) := body.splitOnP (isMark ',')

/-- What stands before a colon, and what stands behind it. -/
def splitColon (ps : List Piece) : List Piece × List Piece :=
  (ps.takeWhile (!·.isMark ':'), (ps.dropWhile (!·.isMark ':')).drop 1)

/-- The entries of an object, with their names; an item that is empty is none. -/
def fields (body : List Piece) : List (List Piece × List Piece) :=
  ((items body).filter (!·.isEmpty)).map splitColon

/-- The terms of a group. -/
def termsOf (kind : Bracket) (body : List Piece) : List (List Piece) :=
  match kind with
  | .square => items body
  | .curly => (fields body).map Prod.snd

/-! ### Smaller terms -/

theorem sublist_of_mem_splitOnP {α : Type} {p : α → Bool} {xs : List α} :
    ∀ {x : List α}, x ∈ xs.splitOnP p → x.Sublist xs := by
  induction xs with
  | nil =>
    intro x hx
    rw [List.splitOnP_nil] at hx
    rw [List.mem_singleton.mp hx]
  | cons a xs ih =>
    intro x hx
    rw [List.splitOnP_cons_eq_if_modifyHead] at hx
    split at hx
    · rcases List.mem_cons.mp hx with rfl | hx
      · exact List.nil_sublist _
      · exact (ih hx).cons a
    · cases hsplit : xs.splitOnP p with
      | nil =>
        rw [hsplit] at hx
        cases hx
      | cons first rest =>
        rw [hsplit, List.modifyHead_cons] at hx
        rcases List.mem_cons.mp hx with rfl | hx
        · exact (ih (hsplit ▸ List.mem_cons_self)).cons_cons a
        · exact (ih (hsplit ▸ List.mem_cons_of_mem _ hx)).cons a

theorem sublist_of_mem_items {body item : List Piece} (h : item ∈ items body) :
    item.Sublist body :=
  sublist_of_mem_splitOnP h

theorem splitColon_sublist (ps : List Piece) :
    (splitColon ps).1.Sublist ps ∧ (splitColon ps).2.Sublist ps :=
  ⟨List.takeWhile_sublist _, (List.drop_sublist _ _).trans (List.dropWhile_sublist _)⟩

theorem sublist_of_mem_fields {body : List Piece} {f : List Piece × List Piece}
    (h : f ∈ fields body) : f.1.Sublist body ∧ f.2.Sublist body := by
  obtain ⟨item, hitem, rfl⟩ := List.mem_map.mp h
  have hbody := sublist_of_mem_items (List.mem_filter.mp hitem).1
  obtain ⟨hname, hterm⟩ := splitColon_sublist item
  exact ⟨hname.trans hbody, hterm.trans hbody⟩

theorem sublist_of_mem_termsOf {kind : Bracket} {body term : List Piece}
    (h : term ∈ termsOf kind body) : term.Sublist body := by
  cases kind with
  | square => exact sublist_of_mem_items h
  | curly =>
    obtain ⟨f, hf, rfl⟩ := List.mem_map.mp h
    exact (sublist_of_mem_fields hf).2

theorem sizeOf_le_of_sublist {ps qs : List Piece} (h : ps.Sublist qs) : sizeOf ps ≤ sizeOf qs := by
  induction h with
  | slnil => exact Nat.le_refl _
  | cons p _ ih =>
    simp only [List.cons.sizeOf_spec]
    omega
  | cons_cons p _ ih =>
    simp only [List.cons.sizeOf_spec]
    omega

theorem unmark_sublist (ps : List Piece) : (unmark ps).2.Sublist ps := by
  cases ps with
  | nil => exact List.Sublist.refl _
  | cons p ps =>
    rw [unmark]
    split
    · exact List.sublist_cons_self p ps
    · exact List.Sublist.refl _

/-- The pieces of a group are smaller than a term that it is. -/
theorem sizeOf_body_lt {ps body : List Piece} {number : Nat} {kind : Bracket}
    (h : (unmark ps).2 = [.group number kind body]) : sizeOf body < sizeOf ps := by
  have hle := sizeOf_le_of_sublist (unmark_sublist ps)
  rw [h] at hle
  simp only [List.cons.sizeOf_spec, Piece.group.sizeOf_spec] at hle
  omega

/-- A term is a group, or it is a scalar. -/
theorem group_or_scalar (ps : List Piece) :
    (∃ number kind body, (unmark ps).2 = [.group number kind body]) ∨
      ∀ number kind body, (unmark ps).2 ≠ [.group number kind body] := by
  by_cases h : ∃ number kind body, (unmark ps).2 = [.group number kind body]
  · exact .inl h
  · exact .inr fun number kind body he => h ⟨number, kind, body, he⟩

/-- **Induction over the terms of a text**: a term that is a group may assume the
statement of the terms of the group. -/
theorem term_induct {motive : List Piece → Prop}
    (h : ∀ ps, (∀ number kind body, (unmark ps).2 = [.group number kind body] →
      ∀ term ∈ termsOf kind body, motive term) → motive ps) : ∀ ps, motive ps := by
  intro ps
  induction hn : sizeOf ps using Nat.strongRecOn generalizing ps with
  | _ n ih =>
    refine h ps fun number kind body hbody term hterm => ih (sizeOf term) ?_ term rfl
    rw [← hn]
    exact Nat.lt_of_le_of_lt (sizeOf_le_of_sublist (sublist_of_mem_termsOf hterm))
      (sizeOf_body_lt hbody)

/-! ### The flat form is taken apart where the pieces are -/

/-- A character that is no digit and no `$` is left of itself only. -/
theorem notMem_text {p : Piece} {c : Char} (h : p.isMark c = false) (hc : c.isDigit = false)
    (hne : c ≠ '$') : c ∉ p.text := by
  intro hmem
  obtain ⟨plain, rfl⟩ := eq_mark_of_mem_text hmem hc hne
  simp [isMark] at h

theorem text_eq_of_isMark {p : Piece} {c : Char} (h : p.isMark c = true) : p.text = [c] := by
  cases p with
  | mark d plain => rw [text, of_decide_eq_true h]
  | literal => cases h
  | group => cases h

theorem splitOn_append {text rest : List Char} {c : Char} (h : c ∉ text) :
    (text ++ rest).splitOn c = (rest.splitOn c).modifyHead (text ++ ·) := by
  induction text with
  | nil => cases hrest : rest.splitOn c <;> simp [hrest]
  | cons d text ih =>
    rw [List.mem_cons, not_or] at h
    have hd : ¬ (d == c) = true := by simpa using fun e : d = c => h.1 e.symm
    rw [List.cons_append, List.splitOn, List.splitOnP_cons_eq_if_modifyHead, if_neg hd]
    have ih := ih h.2
    rw [List.splitOn] at ih
    rw [ih, List.splitOn]
    cases rest.splitOnP (· == c) <;> rfl

/-- The commas of the flat form are those of the pieces. -/
theorem splitOn_flatText (body : List Piece) :
    (flatText body).splitOn ',' = (items body).map flatText := by
  induction body with
  | nil => rfl
  | cons p body ih =>
    rw [items, List.splitOnP_cons_eq_if_modifyHead, flatText_cons]
    split
    · next hp =>
      rw [text_eq_of_isMark hp, List.singleton_append, List.splitOn,
        List.splitOnP_cons_eq_if_modifyHead, if_pos (by decide), List.map_cons]
      exact congrArg _ ih
    · next hp =>
      have hp : p.isMark ',' = false := by simpa using hp
      rw [splitOn_append (notMem_text hp (by decide) (by decide)), ih, items]
      cases body.splitOnP (isMark ',') <;> rfl

theorem takeWhile_flatText (ps : List Piece) :
    (flatText ps).takeWhile (· ≠ ':') = flatText (splitColon ps).1 ∧
      ((flatText ps).dropWhile (· ≠ ':')).drop 1 = flatText (splitColon ps).2 := by
  induction ps with
  | nil => exact ⟨rfl, rfl⟩
  | cons p ps ih =>
    rw [flatText_cons]
    cases hp : p.isMark ':' with
    | true => simp [splitColon, hp, text_eq_of_isMark hp]
    | false =>
      have hcolon := notMem_text hp (by decide) (by decide)
      have htext : ∀ c ∈ p.text, decide (c ≠ ':') = true :=
        fun _ hc => decide_eq_true fun e => hcolon (e ▸ hc)
      rw [List.takeWhile_append_of_pos htext, List.dropWhile_append_of_pos htext, ih.1, ih.2]
      simp [splitColon, hp]

end Piece

open Piece

/-- A term of the flat form, by the pieces that it comes of. -/
theorem Term.parse_flatText (literals : List (List Char)) (ps : List Piece) :
    Term.parse literals (flatText ps) =
      ⟨(unmark ps).1, Term.parseContent literals (flatText (unmark ps).2)⟩ := by
  cases ps with
  | nil => rfl
  | cons p ps =>
    rw [unmark]
    split
    · next hp =>
      rw [flatText_cons, text_eq_of_isMark hp]
      rfl
    · next hp =>
      have hp : p.isMark '?' = false := by simpa using hp
      have hmark := notMem_text hp (by decide) (by decide)
      obtain ⟨c, text, hc⟩ := List.exists_cons_of_ne_nil p.text_ne_nil
      have hne : c ≠ '?' := by
        rintro rfl
        exact hmark (hc ▸ List.mem_cons_self)
      rw [flatText_cons, hc, List.cons_append, Term.parse]
      rintro rest he
      exact hne (List.cons.inj he).1

/-- The scalar of pieces that are no reference. -/
theorem Term.parseContent_flatText (literals : List (List Char)) {ps : List Piece}
    (h : Reference.parse? (flatText ps) = none) :
    Term.parseContent literals (flatText ps) =
      .scalar (String.ofList (flatText (splitColon ps).1))
        (Term.parseDefault literals (flatText (splitColon (splitColon ps).2).1)) := by
  rw [Term.parseContent, h]
  simp only [List.span_eq_takeWhile_dropWhile]
  rw [(takeWhile_flatText ps).1, (takeWhile_flatText ps).2, (takeWhile_flatText _).1]

/-- **A recorded group has the terms that its pieces have**, and the names. -/
theorem Group.parse_recorded (literals : List (List Char)) (kind : Bracket) (body : List Piece) :
    Group.parse literals (recorded kind body) =
      match kind with
      | .square => .array ((items body).map fun item => Term.parse literals (flatText item))
      | .curly => .object ((fields body).map fun f =>
          (String.ofList (flatText f.1), Term.parse literals (flatText f.2))) := by
  rw [Group.parse, recorded, Group.inner_group, splitOn_flatText]
  cases kind with
  | square =>
    simp only [Bracket.opener, List.head?_cons, if_true, List.map_map]
    rfl
  | curly =>
    have hempty : ∀ item : List Piece, decide (flatText item ≠ []) = !item.isEmpty := by
      intro item
      cases item with
      | nil => rfl
      | cons p ps => simp [text_ne_nil]
    have hentry : ∀ item : List Piece, Group.parseEntry literals (flatText item) =
        (String.ofList (flatText (splitColon item).1),
          Term.parse literals (flatText (splitColon item).2)) := by
      intro item
      rw [Group.parseEntry]
      simp only [List.span_eq_takeWhile_dropWhile]
      rw [(takeWhile_flatText item).1, (takeWhile_flatText item).2]
    simp only [Bracket.opener, List.head?_cons, fields, List.filter_map, List.map_map,
      Function.comp_def, hempty, hentry]
    rfl

/-! ### Outlines -/

/-- The terms of a text as they are written. -/
inductive Outline where
  | scalar (optional : Bool) (ps : List Piece)
  /-- An array, the number of its group and its parts. -/
  | array (optional : Bool) (number : Nat) (parts : List Outline)
  /-- An object, the number of its group and its entries. -/
  | object (optional : Bool) (number : Nat) (entries : List (List Piece × Outline))

/-- The terms that pieces write: a group that stands for itself, or a scalar. -/
def outline (ps : List Piece) : Outline :=
  match _h : (unmark ps).2 with
  | [.group number .square body] =>
    .array (unmark ps).1 number ((items body).attach.map fun item => outline item.1)
  | [.group number .curly body] =>
    .object (unmark ps).1 number ((fields body).attach.map fun f => (f.1.1, outline f.1.2))
  | rest => .scalar (unmark ps).1 rest
termination_by sizeOf ps
decreasing_by
  · exact Nat.lt_of_le_of_lt (sizeOf_le_of_sublist (sublist_of_mem_items item.2))
      (sizeOf_body_lt _h)
  · exact Nat.lt_of_le_of_lt (sizeOf_le_of_sublist (sublist_of_mem_fields f.2).2)
      (sizeOf_body_lt _h)

theorem outline_square {ps body : List Piece} {number : Nat}
    (h : (unmark ps).2 = [.group number .square body]) :
    outline ps = .array (unmark ps).1 number ((items body).map outline) := by
  rw [outline]
  split
  · next h' =>
    rw [h] at h'
    cases h'
    exact congrArg _ List.attach_map_val
  · next h' =>
    rw [h] at h'
    cases h'
  · next hno _ => exact absurd h (hno _ _)

theorem outline_curly {ps body : List Piece} {number : Nat}
    (h : (unmark ps).2 = [.group number .curly body]) :
    outline ps = .object (unmark ps).1 number
      ((fields body).map fun f => (f.1, outline f.2)) := by
  rw [outline]
  split
  · next h' =>
    rw [h] at h'
    cases h'
  · next h' =>
    rw [h] at h'
    cases h'
    exact congrArg _ (List.attach_map_val
      (f := fun g : List Piece × List Piece => (g.1, outline g.2)))
  · next hno => exact absurd h (hno _ _)

theorem outline_scalar {ps : List Piece}
    (h : ∀ number kind body, (unmark ps).2 ≠ [.group number kind body]) :
    outline ps = .scalar (unmark ps).1 (unmark ps).2 := by
  rw [outline]
  split
  · next h' => exact absurd h' (h _ _ _)
  · next h' => exact absurd h' (h _ _ _)
  · rfl

end TerseSchema
