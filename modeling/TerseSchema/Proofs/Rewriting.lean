import Mathlib.Logic.Relation
import TerseSchema.Schema.Flat

/-!
# Flattening by rewriting

What flattening does to a whole text can be said by two kinds of rewriting.  First
the literals leave the text, the left-most one each time, and a placeholder takes
the place of each.  Then, white space being deleted, the groups leave it: always the
left-most one that holds no bracket, for which its number is put in.  Either goes
on until nothing is left to rewrite.

## Main definitions

* `Rewriting` — a text, and the table of what has left it.
* `LiftsLiteral`, `LiftsGroup` — one step of either kind.
* `Exhausts` — a relation applied until it applies no more.
* `Rewritten` — the flat schema that a text is rewritten to.

## Main results

* `liftsLiteral_rightUnique`, `liftsGroup_rightUnique` — a step has one outcome.
* `exists_rewritten` — **every text is rewritten to one flat schema.**
-/

namespace TerseSchema

/-! ### Rewriting until nothing is left -/

section
variable {α : Type} {r : α → α → Prop}

/-- `r` leads from `a` to `b`, and no further. -/
def Exhausts (r : α → α → Prop) (a b : α) : Prop :=
  Relation.ReflTransGen r a b ∧ ∀ c, ¬ r b c

theorem Exhausts.unique (hr : Relator.RightUnique r) {a b c : α} (hb : Exhausts r a b)
    (hc : Exhausts r a c) : b = c := by
  rcases Relation.ReflTransGen.total_of_right_unique hr hb.1 hc.1 with h | h
  · rcases h.cases_head with h | ⟨d, hd, -⟩
    · exact h
    · exact absurd hd (hb.2 d)
  · rcases h.cases_head with h | ⟨d, hd, -⟩
    · exact h.symm
    · exact absurd hd (hc.2 d)

/-- What is left of an exhausted rewriting is left of every stage of it. -/
theorem Exhausts.of_reach (hr : Relator.RightUnique r) {a b c : α} (hc : Exhausts r a c)
    (hb : Relation.ReflTransGen r a b) : Exhausts r b c := by
  refine ⟨?_, hc.2⟩
  rcases Relation.ReflTransGen.total_of_right_unique hr hb hc.1 with h | h
  · exact h
  · rcases h.cases_head with h | ⟨d, hd, -⟩
    · rw [h]
    · exact absurd hd (hc.2 d)

/-- What gets smaller with every step is exhausted in the end. -/
theorem exists_exhausts (size : α → Nat) (hr : ∀ {a b}, r a b → size b < size a) (a : α) :
    ∃ b, Exhausts r a b := by
  induction hn : size a using Nat.strongRecOn generalizing a with
  | _ n ih =>
    by_cases h : ∃ b, r a b
    · obtain ⟨b, hb⟩ := h
      obtain ⟨c, hreach, hc⟩ := ih (size b) (hn ▸ hr hb) b rfl
      exact ⟨c, .head hb hreach, hc⟩
    · exact ⟨a, .refl, not_exists.mp h⟩

end

/-! ### Places in a text -/

section
variable {α : Type} {as as' bs bs' : List α} {c c' : α}

/-- Of two places in a text, they are one, or one is before the other. -/
theorem append_cons_cases (h : as ++ c :: bs = as' ++ c' :: bs') :
    (as = as' ∧ c = c' ∧ bs = bs') ∨ (∃ mid, as' = as ++ c :: mid ∧ bs = mid ++ c' :: bs') ∨
      ∃ mid, as = as' ++ c' :: mid ∧ bs' = mid ++ c :: bs := by
  rcases List.append_eq_append_iff.mp h with ⟨mid, hmid, hrest⟩ | ⟨mid, hmid, hrest⟩
  · cases mid with
    | nil =>
      obtain ⟨hc, hbs⟩ := List.cons.inj hrest
      exact .inl ⟨by simpa using hmid.symm, hc, hbs⟩
    | cons d mid =>
      obtain ⟨rfl, hbs⟩ := List.cons.inj hrest
      exact .inr (.inl ⟨mid, hmid, hbs⟩)
  · cases mid with
    | nil =>
      obtain ⟨hc, hbs⟩ := List.cons.inj hrest
      exact .inl ⟨by simpa using hmid, hc.symm, hbs.symm⟩
    | cons d mid =>
      obtain ⟨rfl, hbs⟩ := List.cons.inj hrest
      exact .inr (.inr ⟨mid, hmid, hbs⟩)

/-- There is one first place of its kind. -/
theorem eq_of_first {p : α → Prop} (h : as ++ c :: bs = as' ++ c' :: bs')
    (has : ∀ x ∈ as, ¬ p x) (hc : p c) (has' : ∀ x ∈ as', ¬ p x) (hc' : p c') :
    as = as' ∧ c = c' ∧ bs = bs' := by
  rcases append_cons_cases h with h | ⟨mid, rfl, -⟩ | ⟨mid, rfl, -⟩
  · exact h
  · exact absurd hc (has' c (by simp))
  · exact absurd hc' (has c' (by simp))

end

/-! ### Steps -/

/-- A text, and the table of what has left it. -/
structure Rewriting where
  text : List Char
  table : List (List Char)

/-- The left-most literal goes to the table and leaves its placeholder behind. -/
def LiftsLiteral (r r' : Rewriting) : Prop :=
  ∃ before literal after, '"' ∉ before ∧ '"' ∉ literal ∧
    r.text = before ++ '"' :: (literal ++ '"' :: after) ∧
    r' = ⟨before ++ '$' :: (Reference.digits r.table.length ++ after), r.table ++ [literal]⟩

/-- The brackets of either kind of group. -/
def brackets : List Char := ['[', '{', ']', '}']

/-- A group that holds no bracket. -/
inductive IsInnermost : List Char → Prop
  | intro (kind : Bracket) {body : List Char} : (∀ c ∈ body, c ∉ brackets) →
      IsInnermost (kind.opener :: (body ++ [kind.closer]))

/-- The left-most group that holds no bracket goes to the table and leaves its number
behind. -/
def LiftsGroup (r r' : Rewriting) : Prop :=
  ∃ before group after, IsInnermost group ∧ r.text = before ++ (group ++ after) ∧
    (∀ before' group' after', IsInnermost group' → r.text = before' ++ (group' ++ after') →
      before.length ≤ before'.length) ∧
    r' = ⟨before ++ (Reference.digits r.table.length ++ after), r.table ++ [group]⟩

/-- The flat schema that a text is rewritten to: the literals leave it, white space is
deleted, and the groups leave it. -/
def Rewritten (text : List Char) (s : FlatSchema) : Prop :=
  ∃ bare, Exhausts LiftsLiteral ⟨text, []⟩ ⟨bare, s.literals⟩ ∧
    Exhausts LiftsGroup ⟨bare.filter fun c => !isBlank c, []⟩ ⟨s.flat, s.lookups⟩

/-! ### Brackets -/

theorem opener_mem (kind : Bracket) : kind.opener ∈ brackets := by cases kind <;> decide

theorem closer_mem (kind : Bracket) : kind.closer ∈ brackets := by cases kind <;> decide

theorem opener_inj {kind kind' : Bracket} (h : kind.opener = kind'.opener) : kind = kind' := by
  cases kind <;> cases kind' <;> first | rfl | exact absurd h (by decide)

theorem closer_inj {kind kind' : Bracket} (h : kind.closer = kind'.closer) : kind = kind' := by
  cases kind <;> cases kind' <;> first | rfl | exact absurd h (by decide)

theorem opener_ne_closer (kind kind' : Bracket) : kind.opener ≠ kind'.closer := by
  cases kind <;> cases kind' <;> decide

theorem digits_notMem_brackets {index : Nat} : ∀ c ∈ Reference.digits index, c ∉ brackets := by
  intro c hc hmem
  have hdigit := Reference.isDigit_of_mem hc
  simp only [brackets, List.mem_cons, List.not_mem_nil, or_false] at hmem
  rcases hmem with rfl | rfl | rfl | rfl <;> exact absurd hdigit (by decide)

/-! ### One outcome -/

theorem liftsLiteral_rightUnique : Relator.RightUnique LiftsLiteral := by
  rintro r a b ⟨before, literal, after, hbefore, hliteral, htext, rfl⟩
    ⟨before', literal', after', hbefore', hliteral', htext', rfl⟩
  have hne : ∀ {text : List Char}, '"' ∉ text → ∀ c ∈ text, ¬ c = '"' :=
    fun h c hc e => h (e ▸ hc)
  -- the first quote opens the literal, and the next one closes it
  obtain ⟨rfl, -, hrest⟩ :=
    eq_of_first (htext.symm.trans htext') (hne hbefore) rfl (hne hbefore') rfl
  obtain ⟨rfl, -, rfl⟩ := eq_of_first hrest (hne hliteral) rfl (hne hliteral') rfl
  rfl

/-- A group that holds no bracket ends at the first bracket behind its own. -/
theorem IsInnermost.eq_of_append {group group' after after' : List Char} (h : IsInnermost group)
    (h' : IsInnermost group') (he : group ++ after = group' ++ after') :
    group = group' ∧ after = after' := by
  cases h with
  | @intro kind body hbody =>
    cases h' with
    | @intro kind' body' hbody' =>
      simp only [List.cons_append, List.append_assoc, List.nil_append, List.cons.injEq] at he
      obtain rfl := opener_inj he.1
      obtain ⟨rfl, -, rfl⟩ := eq_of_first (p := (· ∈ brackets)) he.2 hbody (closer_mem kind)
        hbody' (closer_mem kind)
      exact ⟨rfl, rfl⟩

theorem liftsGroup_rightUnique : Relator.RightUnique LiftsGroup := by
  rintro r a b ⟨before, group, after, hgroup, htext, hfirst, rfl⟩
    ⟨before', group', after', hgroup', htext', hfirst', rfl⟩
  have hlength : before.length = before'.length :=
    Nat.le_antisymm (hfirst _ _ _ hgroup' htext') (hfirst' _ _ _ hgroup htext)
  obtain ⟨rfl, hrest⟩ := List.append_inj (htext.symm.trans htext') hlength
  obtain ⟨rfl, rfl⟩ := hgroup.eq_of_append hgroup' hrest
  rfl

/-! ### An end -/

theorem LiftsLiteral.count_lt {r r' : Rewriting} (h : LiftsLiteral r r') :
    r'.text.count '"' < r.text.count '"' := by
  obtain ⟨before, literal, after, -, -, htext, rfl⟩ := h
  have hdigits : (Reference.digits r.table.length).count '"' = 0 :=
    List.count_eq_zero.mpr (Reference.notMem_digits (by decide))
  simp only [htext, List.count_append, List.count_cons_self, hdigits,
    List.count_cons_of_ne (show '$' ≠ '"' by decide)]
  omega

theorem LiftsGroup.countP_lt {r r' : Rewriting} (h : LiftsGroup r r') :
    r'.text.countP (· ∈ brackets) < r.text.countP (· ∈ brackets) := by
  obtain ⟨before, group, after, hgroup, htext, -, rfl⟩ := h
  have hdigits : (Reference.digits r.table.length).countP (· ∈ brackets) = 0 :=
    List.countP_eq_zero.mpr fun c hc => by simpa using digits_notMem_brackets c hc
  cases hgroup with
  | @intro kind body _ =>
    have hopener : decide (kind.opener ∈ brackets) = true := decide_eq_true (opener_mem kind)
    have hcloser : decide (kind.closer ∈ brackets) = true := decide_eq_true (closer_mem kind)
    rw [htext]
    simp only [List.countP_append, List.countP_cons, List.countP_nil, hdigits, hopener, hcloser,
      if_true]
    omega

/-- **Every text is rewritten to one flat schema.** -/
theorem exists_rewritten (text : List Char) : ∃ s, ∀ s', Rewritten text s' ↔ s' = s := by
  obtain ⟨⟨bare, literals⟩, hbare⟩ := exists_exhausts (r := LiftsLiteral)
    (fun r => r.text.count '"') LiftsLiteral.count_lt ⟨text, []⟩
  obtain ⟨⟨flat, lookups⟩, hflat⟩ := exists_exhausts (r := LiftsGroup)
    (fun r => r.text.countP (· ∈ brackets)) LiftsGroup.countP_lt
    ⟨bare.filter fun c => !isBlank c, []⟩
  refine ⟨⟨flat, lookups, literals⟩, fun s' => ⟨?_, ?_⟩⟩
  · rintro ⟨bare', hbare', hflat'⟩
    obtain ⟨rfl, hliterals⟩ := Rewriting.mk.inj (hbare'.unique liftsLiteral_rightUnique hbare)
    obtain ⟨hflat, hlookups⟩ := Rewriting.mk.inj (hflat'.unique liftsGroup_rightUnique hflat)
    calc s' = ⟨s'.flat, s'.lookups, s'.literals⟩ := rfl
      _ = ⟨flat, lookups, literals⟩ := by rw [hflat, hlookups, hliterals]
  · rintro rfl
    exact ⟨bare, hbare, hflat⟩

end TerseSchema
