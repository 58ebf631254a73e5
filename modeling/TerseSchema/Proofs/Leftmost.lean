import TerseSchema.Proofs.Construction
import TerseSchema.Proofs.Faults
import TerseSchema.Proofs.RoundTrip

/-!
# The left-most unknown type

A schema text is at fault for the first type name in its arena that has no meaning.  The
arena has the scalars of a text between nodes of groups, and groups that a later entry of
the same name replaces stay in it.  So what is first in the arena is what is written
first: the scalars of a draft are listed here as they are written, each with its place,
and the list is followed through flattening and construction.

## Main definitions

* `WrittenScalar`, `Draft.scalars` — the scalars of a draft, with their places.
* `Draft.Within` — the drafts that a draft is made of.
* `typesBelow` — the types that are met at a term of a flat schema.
* `Building.Holds` — the types below what is remembered are in the arena.

## Main results

* `Draft.listed_scalars`, `Draft.exists_mem_scalars_iff` — all scalars are listed, from
  left to right.
* `ledger_types` — what an arena has first is what is met first.
* `leftmost_unknown_type` — **the unknown type reported is the left-most one.**
-/

namespace TerseSchema

/-! ### The scalars of a draft -/

/-- A scalar of a draft, with the number of lexemes in front of it. -/
structure WrittenScalar where
  position : Nat
  optional : Bool
  type : String
  declared : Option Default
  deriving DecidableEq

/-- The scalar by itself. -/
def WrittenScalar.draft (q : WrittenScalar) : Draft := .scalar q.optional q.type q.declared

namespace Draft

mutual

/-- The scalars of a draft that stands behind `n` lexemes, from left to right. -/
def scalarsFrom (n : Nat) : Draft → List WrittenScalar
  | .scalar optional type declared => [⟨n, optional, type, declared⟩]
  | .array optional parts => partScalars (n + (optionalMark optional).length + 1) parts
  | .object optional entries => entryScalars (n + (optionalMark optional).length + 1) entries

/-- The scalars of the parts of an array, with commas between them. -/
def partScalars (n : Nat) : List Draft → List WrittenScalar
  | [] => []
  | d :: ds => d.scalarsFrom n ++ partScalars (n + d.lexemes.length + 1) ds

/-- The scalars of the entries of an object, each behind its name and a colon. -/
def entryScalars (n : Nat) : List (Option String × Draft) → List WrittenScalar
  | [] => []
  | (name, d) :: es =>
    d.scalarsFrom (n + ((entryName name).toList.length + 1)) ++
      entryScalars (n + ((entryName name).toList.length + 1) + d.lexemes.length + 1) es

end

/-- The scalars of a draft, from left to right. -/
def scalars (d : Draft) : List WrittenScalar := d.scalarsFrom 0

/-- A draft is part of another, whatever becomes of it. -/
inductive Within (part : Draft) : Draft → Prop
  | self : Within part part
  | array {optional : Bool} {parts : List Draft} {d : Draft} : d ∈ parts → Within part d →
      Within part (.array optional parts)
  | object {optional : Bool} {entries : List (Option String × Draft)}
      {e : Option String × Draft} : e ∈ entries → Within part e.2 →
      Within part (.object optional entries)

/-- Induction over drafts: a group may assume the statement of its items. -/
theorem induct {motive : Draft → Prop}
    (scalar : ∀ optional type declared, motive (.scalar optional type declared))
    (array : ∀ optional parts, (∀ d ∈ parts, motive d) → motive (.array optional parts))
    (object : ∀ optional entries, (∀ e ∈ entries, motive e.2) →
      motive (.object optional entries)) : ∀ d, motive d :=
  @Draft.rec motive (fun parts => ∀ d ∈ parts, motive d) (fun entries => ∀ e ∈ entries, motive e.2)
    (fun e => motive e.2) scalar array object (List.forall_mem_nil _)
    (fun _ _ hd hds => List.forall_mem_cons.mpr ⟨hd, hds⟩) (List.forall_mem_nil _)
    (fun _ _ he hes => List.forall_mem_cons.mpr ⟨he, hes⟩) (fun _ _ hd => hd)

end Draft

/-- Behind `n` lexemes stand others, and among them a scalar at its place. -/
def StandsAt (n : Nat) (ls : List Lexeme) (q : WrittenScalar) : Prop :=
  ∃ before after, ls = before ++ (q.draft.lexemes ++ after) ∧ n + before.length = q.position

/-- Scalars are listed as they stand among lexemes, from left to right. -/
structure Listed (n : Nat) (ls : List Lexeme) (qs : List WrittenScalar) : Prop where
  stands : ∀ q ∈ qs, StandsAt n ls q
  sorted : qs.Pairwise (·.position < ·.position)

section
variable {n : Nat} {ls : List Lexeme} {q : WrittenScalar} {qs qs' : List WrittenScalar}

theorem StandsAt.le (h : StandsAt n ls q) : n ≤ q.position ∧ q.position ≤ n + ls.length := by
  obtain ⟨before, after, rfl, hposition⟩ := h
  rw [List.length_append]
  omega

theorem StandsAt.append_right (h : StandsAt n ls q) (back : List Lexeme) :
    StandsAt n (ls ++ back) q := by
  obtain ⟨before, after, rfl, hposition⟩ := h
  exact ⟨before, after ++ back, by simp only [List.append_assoc], hposition⟩

theorem StandsAt.append_left {front : List Lexeme} (h : StandsAt (n + front.length) ls q) :
    StandsAt n (front ++ ls) q := by
  obtain ⟨before, after, rfl, hposition⟩ := h
  refine ⟨front ++ before, after, by rw [List.append_assoc], ?_⟩
  rw [List.length_append]
  omega

theorem listed_nil (n : Nat) (ls : List Lexeme) : Listed n ls [] :=
  ⟨List.forall_mem_nil _, .nil⟩

theorem Listed.append_right (h : Listed n ls qs) (back : List Lexeme) : Listed n (ls ++ back) qs :=
  ⟨fun q hq => (h.stands q hq).append_right back, h.sorted⟩

theorem Listed.append_left {front : List Lexeme} (h : Listed (n + front.length) ls qs) :
    Listed n (front ++ ls) qs :=
  ⟨fun q hq => (h.stands q hq).append_left, h.sorted⟩

/-- A scalar may have no lexeme at all, but behind a comma stands another. -/
theorem Listed.comma {ms : List Lexeme} (h : Listed n ls qs)
    (h' : Listed (n + ls.length + 1) ms qs') :
    Listed n (ls ++ [.mark ','] ++ ms) (qs ++ qs') := by
  have hls : Listed n (ls ++ [.mark ','] ++ ms) qs := (h.append_right _).append_right ms
  have hms : Listed n (ls ++ [.mark ','] ++ ms) qs' := by
    refine Listed.append_left ?_
    rw [List.length_append, List.length_singleton, ← Nat.add_assoc]
    exact h'
  refine ⟨List.forall_mem_append.mpr ⟨hls.stands, hms.stands⟩, ?_⟩
  refine List.pairwise_append.mpr ⟨h.sorted, h'.sorted, fun q hq q' hq' => ?_⟩
  have hle := (h.stands q hq).le
  have hle' := (h'.stands q' hq').le
  omega

/-- One item in front of others, or by itself. -/
theorem Listed.item {items : List (List Lexeme)} (h : Listed n ls qs)
    (h' : Listed (n + ls.length + 1) ([.mark ','].intercalate items) qs')
    (hnil : items = [] → qs' = []) :
    Listed n ([.mark ','].intercalate (ls :: items)) (qs ++ qs') := by
  by_cases hitems : items = []
  · rw [hnil hitems, List.append_nil, hitems, List.intercalate_singleton]
    exact h
  · rw [List.intercalate_cons_of_ne_nil hitems]
    exact h.comma h'

/-- A group stands between its mark and its brackets. -/
theorem Listed.group {optional : Bool} {items : List (List Lexeme)}
    (h : Listed (n + (optionalMark optional).length + 1) ([.mark ','].intercalate items) qs)
    (kind : Bracket) :
    Listed n (spelled (optionalMark optional) ++ groupLexemes kind items) qs := by
  have hmark : (spelled (optionalMark optional)).length = (optionalMark optional).length :=
    List.length_map _
  have hinner : Listed (n + (optionalMark optional).length)
      ([.mark kind.opener] ++ [.mark ','].intercalate items) qs := h.append_left
  rw [← hmark] at hinner
  exact (hinner.append_right [.mark kind.closer]).append_left

end

namespace Draft

/-- **The scalars of a draft are listed as they are written, from left to right.** -/
theorem listed_scalarsFrom (d : Draft) : ∀ n, Listed n d.lexemes (d.scalarsFrom n) := by
  induction d using Draft.induct with
  | scalar optional type declared =>
    intro n
    refine ⟨List.forall_mem_singleton.mpr ⟨[], [], ?_, rfl⟩, List.pairwise_singleton _ _⟩
    rw [List.nil_append, List.append_nil]
    rfl
  | array optional parts ih =>
    intro n
    rw [scalarsFrom]
    refine Listed.group ?_ .square
    generalize n + (optionalMark optional).length + 1 = n
    induction parts generalizing n with
    | nil => exact listed_nil n _
    | cons d ds ihds =>
      obtain ⟨hd, hds⟩ := List.forall_mem_cons.mp ih
      refine (hd n).item (ihds hds _) fun hnil => ?_
      rw [partLexemes_eq_map, List.map_eq_nil_iff] at hnil
      rw [hnil, partScalars]
  | object optional entries ih =>
    intro n
    rw [scalarsFrom]
    refine Listed.group ?_ .curly
    generalize n + (optionalMark optional).length + 1 = n
    induction entries generalizing n with
    | nil => exact listed_nil n _
    | cons e es ihes =>
      obtain ⟨he, hes⟩ := List.forall_mem_cons.mp ih
      obtain ⟨name, d⟩ := e
      have hname : (spelled ((entryName name).toList ++ [':'])).length =
          (entryName name).toList.length + 1 := by
        rw [spelled, List.length_map, List.length_append, List.length_singleton]
      have hentry := Listed.append_left
        (he (n + (spelled ((entryName name).toList ++ [':'])).length))
      rw [entryLexemes, entryScalars, ← hname]
      refine hentry.item ?_ fun hnil => ?_
      · rw [List.length_append, ← Nat.add_assoc]
        exact ihes hes _
      · rw [entryLexemes_eq_map, List.map_eq_nil_iff] at hnil
        rw [hnil, entryScalars]

/-- **The scalars listed are those that the draft is made of.** -/
theorem exists_mem_scalarsFrom_iff (optional : Bool) (type : String) (declared : Option Default)
    (d : Draft) : ∀ n, (∃ q ∈ d.scalarsFrom n, q.draft = .scalar optional type declared) ↔
      Within (.scalar optional type declared) d := by
  induction d using Draft.induct with
  | scalar optional' type' declared' =>
    intro n
    constructor
    · rintro ⟨q, hq, hdraft⟩
      obtain rfl := List.mem_singleton.mp hq
      rw [← hdraft]
      exact .self
    · intro h
      cases h
      exact ⟨_, List.mem_singleton_self _, rfl⟩
  | array mark parts ih =>
    intro n
    have hparts : ∀ n, (∃ q ∈ partScalars n parts, q.draft = .scalar optional type declared) ↔
        ∃ d ∈ parts, Within (.scalar optional type declared) d := by
      induction parts with
      | nil => exact fun n => by simp [partScalars]
      | cons d ds ihds =>
        obtain ⟨hd, hds⟩ := List.forall_mem_cons.mp ih
        intro n
        simp only [partScalars, List.mem_append, or_and_right, exists_or, hd, ihds hds,
          List.mem_cons, exists_eq_left]
    refine (hparts _).trans ⟨fun ⟨d, hd, h⟩ => .array hd h, fun h => ?_⟩
    cases h with
    | array hd h => exact ⟨_, hd, h⟩
  | object mark entries ih =>
    intro n
    have hentries : ∀ n, (∃ q ∈ entryScalars n entries, q.draft = .scalar optional type declared) ↔
        ∃ e ∈ entries, Within (.scalar optional type declared) e.2 := by
      induction entries with
      | nil => exact fun n => by simp [entryScalars]
      | cons e es ihes =>
        obtain ⟨he, hes⟩ := List.forall_mem_cons.mp ih
        intro n
        simp only [entryScalars, List.mem_append, or_and_right, exists_or, he, ihes hes,
          List.mem_cons, exists_eq_left]
    refine (hentries _).trans ⟨fun ⟨e, he, h⟩ => .object he h, fun h => ?_⟩
    cases h with
    | object he h => exact ⟨_, he, h⟩

theorem listed_scalars (d : Draft) : Listed 0 d.lexemes d.scalars := d.listed_scalarsFrom 0

theorem exists_mem_scalars_iff {optional : Bool} {type : String} {declared : Option Default}
    (d : Draft) : (∃ q ∈ d.scalars, q.draft = .scalar optional type declared) ↔
      Within (.scalar optional type declared) d :=
  d.exists_mem_scalarsFrom_iff optional type declared 0

end Draft

/-! ### Types that are met -/

/-- The types that are met at a term, from left to right. -/
def typesBelow (s : FlatSchema) (bound : Nat) (t : Term) : List String :=
  match t.content with
  | .scalar type _ => [type]
  | .reference index =>
    if index < bound then (s.group index).terms.flatMap (typesBelow s index) else []
termination_by bound

section
variable {s : FlatSchema} {bound : Nat}

theorem typesBelow_scalar (optional : Bool) (type : String) (declared : Option Default) :
    typesBelow s bound ⟨optional, .scalar type declared⟩ = [type] := by
  rw [typesBelow]

theorem typesBelow_reference {index : Nat} (h : index < bound) (optional : Bool) :
    typesBelow s bound ⟨optional, .reference index⟩ =
      (s.group index).terms.flatMap (typesBelow s index) := by
  rw [typesBelow]
  exact if_pos h

end

/-- The types met at the term that is read for a draft are those of its scalars. -/
def ListsTypes (d : Draft) : TermProp := fun s bound t =>
  ∀ n, (d.scalarsFrom n).map WrittenScalar.type = typesBelow s bound t

theorem isReading_listsTypes : IsReading ListsTypes where
  scalar optional type declared s bound n := (typesBelow_scalar optional type declared).symm
  array := by
    intro optional parts s bound index terms hb hgroup hterms n
    rw [typesBelow_reference hb, hgroup, Group.terms, Draft.scalarsFrom]
    generalize n + (optionalMark optional).length + 1 = n
    clear hgroup
    induction hterms generalizing n with
    | nil => rfl
    | cons hd _ ih =>
      rw [Draft.partScalars, List.map_append, hd n, ih, List.flatMap_cons]
  object := by
    intro optional entries s bound index terms hb hgroup hnames hterms n
    rw [typesBelow_reference hb, hgroup, Group.terms, Draft.scalarsFrom]
    generalize n + (optionalMark optional).length + 1 = n
    clear hgroup hnames
    induction hterms generalizing n with
    | nil => rfl
    | cons he _ ih =>
      rw [Draft.entryScalars, List.map_append, he.2, ih, List.map_cons, List.flatMap_cons]

/-! ### Types in the arena -/

namespace Building

/-- The types of the scalars that are placed. -/
def types (b : Building) : List String := b.nodes.filterMap Node.type?

/-- The types met below what is remembered are in the arena. -/
def Holds (s : FlatSchema) (b : Building) : Prop :=
  ∀ (index : Nat) (optional : Bool) (id : Nat), b.placed.lookup (index, optional) = some id →
    (s.group index).terms.flatMap (typesBelow s index) ⊆ b.types

/-- Whatever is looked for, the first in the arena is the first of what was there and of
further types. -/
def Finds (types : List String) (b b' : Building) : Prop :=
  ∀ p, b'.types.find? p = (b.types ++ types).find? p

theorem types_push (b : Building) (node : Node) :
    (b.push node).types = b.types ++ node.type?.toList := by
  rw [types, push, List.filterMap_append]
  cases h : node.type? <;> simp [types, h]

theorem types_enter (b : Building) (key : Nat × Bool) {node : Node} (h : node.isGroup) :
    (b.enter key node).types = b.types := by
  have htypes : (b.enter key node).types = (b.push node).types := rfl
  rw [htypes, types_push]
  cases node with
  | scalar optional type declared => cases h
  | array optional parts => exact List.append_nil _
  | object optional fields wildcard => exact List.append_nil _

end Building

open Building

/-- What is in the one list is in the other, if every search finds the same. -/
theorem subset_of_find?_eq {types types' : List String}
    (h : ∀ p, types'.find? p = types.find? p) : types ⊆ types' := by
  intro type htype
  have hsome : (types.find? (· == type)).isSome :=
    List.find?_isSome.mpr ⟨type, htype, beq_self_eq_true type⟩
  rw [← h] at hsome
  obtain ⟨type', htype', heq⟩ := List.find?_isSome.mp hsome
  rwa [← beq_iff_eq.mp heq]

/-- **What an arena has first is what is met first**: a group adds no type behind those of
its terms, and an entry that is remembered only has types that were met before. -/
theorem ledger_types (s : FlatSchema) :
    Ledger s (Holds s) Finds [] (· ++ ·) (typesBelow s) where
  refl b p := by rw [List.append_nil]
  trans ts ts' b b' b'' h h' p := by
    rw [h' p, List.find?_append, h p, ← List.find?_append, List.append_assoc]
  scalar bound optional type declared b hb := by
    have htypes := types_push b (.scalar optional type declared)
    refine ⟨fun index mark id hid => ?_, fun p => ?_⟩
    · rw [htypes]
      exact List.Subset.trans (hb index mark id hid) (List.subset_append_left _ _)
    · rw [htypes, typesBelow_scalar]
      rfl
  found bound index optional id b hlt hb hid p := by
    have hsub := hb index optional id hid
    rw [typesBelow_reference hlt, List.find?_append]
    cases hfind : b.types.find? p with
    | some type => rfl
    | none =>
      rw [Option.none_or]
      symm
      exact List.find?_eq_none.mpr fun type htype => List.find?_eq_none.mp hfind type (hsub htype)
  enter bound index optional b b' node hlt _ hb' _ hnode hmove := by
    have hterms : (s.group index).terms.foldr (fun t => (typesBelow s index t ++ ·)) [] =
        (s.group index).terms.flatMap (typesBelow s index) := by
      rw [List.foldr_append_eq_append, List.append_nil, ← List.flatMap_def]
    rw [hterms] at hmove
    have htypes := types_enter b' (index, optional) hnode
    refine ⟨fun index' mark id hid => ?_, fun p => ?_⟩
    · rw [htypes]
      rw [enter, List.lookup_cons] at hid
      split at hid
      · next heq =>
        -- the types below the entry were met on the way
        obtain ⟨rfl, -⟩ := Prod.mk.inj (beq_iff_eq.mp heq)
        exact List.Subset.trans (List.subset_append_right _ _) (subset_of_find?_eq hmove)
      · exact hb' index' mark id hid
    · rw [htypes, typesBelow_reference hlt]
      exact hmove p

/-- **Every search through the types of an arena finds the first that is met.** -/
theorem find?_types_of_compile {s : FlatSchema} {a : Arena} (h : compile s = .ok a)
    (p : String → Bool) :
    a.types.find? p = (typesBelow s s.lookups.length s.root).find? p := by
  have hempty : Holds s {} := fun _ _ _ hid => by cases hid
  obtain ⟨b, -, hnodes, -, hfinds⟩ := (ledger_types s).compile hempty h
  rw [Arena.types, ← hnodes]
  exact hfinds p

/-! ### Whole texts -/

/-- A text that spells lexemes one behind the other is split as they are. -/
theorem Spells.split {all : List Lexeme} {text : List Char} (h : Spells all text) :
    ∀ {ls ms : List Lexeme}, all = ls ++ ms →
      ∃ before after, text = before ++ after ∧ Spells ls before ∧ Spells ms after := by
  induction h with
  | nil =>
    intro ls ms hall
    obtain ⟨rfl, rfl⟩ := List.append_eq_nil_iff.mp hall.symm
    exact ⟨[], [], rfl, .nil, .nil⟩
  | blank c hc _ ih =>
    intro ls ms hall
    obtain ⟨before, after, rfl, hls, hms⟩ := ih hall
    exact ⟨c :: before, after, rfl, .blank c hc hls, hms⟩
  | @mark all text c h ih =>
    intro ls ms hall
    rcases List.cons_eq_append_iff.mp hall with ⟨rfl, rfl⟩ | ⟨ls, rfl, rfl⟩
    · exact ⟨[], c :: text, rfl, .nil, .mark c h⟩
    · obtain ⟨before, after, rfl, hls, hms⟩ := ih rfl
      exact ⟨c :: before, after, rfl, .mark c hls, hms⟩
  | @literal all text body h ih =>
    intro ls ms hall
    rcases List.cons_eq_append_iff.mp hall with ⟨rfl, rfl⟩ | ⟨ls, rfl, rfl⟩
    · exact ⟨[], '"' :: (body ++ '"' :: text), rfl, .nil, .literal body h⟩
    · obtain ⟨before, after, rfl, hls, hms⟩ := ih rfl
      exact ⟨'"' :: (body ++ '"' :: before), after, by simp, .literal body hls, hms⟩

/-- A scalar stands in a text that writes lexemes: what is in front of it takes a piece of
the text, and then the scalar is written. -/
def WrittenScalar.StandsIn (q : WrittenScalar) (ls : List Lexeme) (text : List Char) : Prop :=
  ∃ front behind before after, ls = front ++ (q.draft.lexemes ++ behind) ∧
    front.length = q.position ∧ text = before ++ after ∧ Spells front before ∧
    Spells (q.draft.lexemes ++ behind) after

/-- **Every scalar of a draft stands at its place in the text.** -/
theorem Draft.standsIn_of_mem_scalars {d : Draft} {text : String} (ht : d.WrittenAs text)
    {q : WrittenScalar} (hq : q ∈ d.scalars) : q.StandsIn d.lexemes text.toList := by
  obtain ⟨front, behind, hlexemes, hposition⟩ := d.listed_scalars.stands q hq
  obtain ⟨before, after, htext, hbefore, hafter⟩ := Spells.split ht hlexemes
  rw [Nat.zero_add] at hposition
  exact ⟨front, behind, before, after, hlexemes, hposition, htext, hbefore, hafter⟩

/-- Which name is at fault depends on what a search finds alone. -/
theorem ensureKnown_congr {names names' : List String}
    (h : ∀ p, names.find? p = names'.find? p) (registry : Registry) :
    registry.ensureKnown names = registry.ensureKnown names' := by
  rw [Registry.ensureKnown, Registry.ensureKnown, h]

/-- Names are at fault exactly if one of them has no meaning. -/
theorem exists_ensureKnown_eq_error_iff (registry : Registry) (names : List String) :
    (∃ e, registry.ensureKnown names = .error e) ↔ ∃ name ∈ names, ¬ registry.Means name := by
  rcases ensureKnown_cases registry names with
    ⟨hknown, hmeans⟩ | ⟨before, name, after, rfl, -, hname, hfault⟩
  · refine iff_of_false (fun ⟨e, he⟩ => ?_) fun ⟨name, hname, hnot⟩ => hnot (hmeans name hname)
    cases hknown.symm.trans he
  · exact iff_of_true ⟨_, hfault⟩ ⟨name, List.mem_append_right _ List.mem_cons_self, hname⟩

/-- **Of scalars listed from left to right, a search finds the left-most.** -/
theorem find?_eq_some_iff_leftmost {qs : List WrittenScalar}
    (hsorted : qs.Pairwise (·.position < ·.position)) {p : WrittenScalar → Bool}
    {q : WrittenScalar} : qs.find? p = some q ↔
      q ∈ qs ∧ p q ∧ ∀ q' ∈ qs, q'.position < q.position → p q' = false := by
  have hfirst : ∀ {q}, qs.find? p = some q → ∀ q' ∈ qs, p q' →
      q' = q ∨ q.position < q'.position := by
    intro q h q' hq' hp
    obtain ⟨-, before, after, rfl, hbefore⟩ := List.find?_eq_some_iff_append.mp h
    rcases List.mem_append.mp hq' with hq' | hq'
    · have hnot := hbefore q' hq'
      rw [hp] at hnot
      cases hnot
    · have hafter := (List.pairwise_cons.mp (List.pairwise_append.mp hsorted).2.1).1
      exact (List.mem_cons.mp hq').imp_right (hafter q')
  constructor
  · intro h
    refine ⟨List.mem_of_find?_eq_some h, List.find?_some h, fun q' hq' hlt => ?_⟩
    by_contra hp
    rcases hfirst h q' hq' (Bool.of_not_eq_false hp) with rfl | hgt
    · exact Nat.lt_irrefl _ hlt
    · exact Nat.lt_asymm hlt hgt
  · rintro ⟨hq, hp, hleast⟩
    cases hfind : qs.find? p with
    | none => exact absurd hp (List.find?_eq_none.mp hfind q hq)
    | some q₀ =>
      rcases hfirst hfind q hq hp with rfl | hgt
      · rfl
      · have hnot := hleast q₀ (List.mem_of_find?_eq_some hfind) hgt
        rw [List.find?_some hfind] at hnot
        cases hnot

/-- Of scalars listed from left to right, the left-most one of an unknown type is at
fault. -/
theorem ensureKnown_map_type {qs : List WrittenScalar}
    (hsorted : qs.Pairwise (·.position < ·.position)) (registry : Registry) (e : SchemaError) :
    registry.ensureKnown (qs.map WrittenScalar.type) = .error e ↔
      ∃ q ∈ qs, ¬ registry.Means q.type ∧ e = .unknownType q.type ∧
        ∀ q' ∈ qs, q'.position < q.position → registry.Means q'.type := by
  rw [Registry.ensureKnown, List.find?_map]
  generalize hp : ((fun name => name ≠ "" && !registry.has name) ∘ WrittenScalar.type) = p
  have hunknown : ∀ q, p q = true ↔ ¬ registry.Means q.type := by
    intro q
    rw [Registry.not_means_iff, ← hp]
    simp
  have hleftmost : ∀ q, qs.find? p = some q ↔ q ∈ qs ∧ ¬ registry.Means q.type ∧
      ∀ q' ∈ qs, q'.position < q.position → registry.Means q'.type := by
    intro q
    simp only [find?_eq_some_iff_leftmost hsorted, ← Bool.not_eq_true, hunknown, not_not]
  cases hfind : qs.find? p with
  | none =>
    refine iff_of_false (fun h => by cases h) ?_
    rintro ⟨q, hq, hmeans, -, hleast⟩
    cases hfind.symm.trans ((hleftmost q).mpr ⟨hq, hmeans, hleast⟩)
  | some q =>
    obtain ⟨hq, hmeans, hleast⟩ := (hleftmost q).mp hfind
    constructor
    · intro h
      exact ⟨q, hq, hmeans, (Except.error.inj h).symm, hleast⟩
    · rintro ⟨q', hq', hmeans', rfl, hleast'⟩
      have hsame := hfind.symm.trans ((hleftmost q').mpr ⟨hq', hmeans', hleast'⟩)
      rw [Option.some.inj hsame]
      rfl

/-- **The unknown type reported is the left-most one.**  However a draft is written down,
its text compiles, and what is compiled is at fault exactly if some scalar of the draft has
a type that is not empty and that the registry lacks, also if it is below an optional term
or if a later entry takes its place.  The name at fault is that of the first such scalar in
the text. -/
theorem leftmost_unknown_type {d : Draft} (hd : d.WellFormed) {text : String}
    (ht : d.WrittenAs text) (hlength : text.length ≤ pow2 64) :
    (∀ q ∈ d.scalars, q.StandsIn d.lexemes text.toList) ∧
    ∃ s a, flatten text = .ok s ∧ compile s = .ok a ∧ ∀ registry : Registry,
      ((∃ e, registry.ensureKnown a.types = .error e) ↔
        ∃ optional type declared, (Draft.scalar optional type declared).Within d ∧
          type ≠ "" ∧ registry.has type = false) ∧
      ∀ e, registry.ensureKnown a.types = .error e ↔
        ∃ q ∈ d.scalars, (q.type ≠ "" ∧ registry.has q.type = false) ∧
          e = .unknownType q.type ∧
          ∀ q' ∈ d.scalars, q'.position < q.position → registry.Means q'.type := by
  refine ⟨fun q hq => Draft.standsIn_of_mem_scalars ht hq, ?_⟩
  obtain ⟨s, hflatten, helaborate⟩ := flatten_of_writtenAs hd ht hlength
  obtain ⟨a, hcompile, -⟩ := compile_of_elaborate helaborate
  obtain ⟨s', hflatten', htypes⟩ := flatten_of_isReading isReading_listsTypes hd ht hlength
  obtain rfl : s = s' := Except.ok.inj (hflatten.symm.trans hflatten')
  have hsame : ∀ registry : Registry, registry.ensureKnown a.types =
      registry.ensureKnown (d.scalars.map WrittenScalar.type) := by
    refine ensureKnown_congr fun p => ?_
    rw [find?_types_of_compile hcompile, ← htypes 0, Draft.scalars]
  refine ⟨s, a, hflatten, hcompile, fun registry => ⟨?_, fun e => ?_⟩⟩
  · rw [hsame, exists_ensureKnown_eq_error_iff]
    constructor
    · rintro ⟨name, hname, hnot⟩
      obtain ⟨q, hq, rfl⟩ := List.mem_map.mp hname
      exact ⟨q.optional, q.type, q.declared, d.exists_mem_scalars_iff.mp ⟨q, hq, rfl⟩,
        Registry.not_means_iff.mp hnot⟩
    · rintro ⟨optional, type, declared, hwithin, hunknown⟩
      obtain ⟨q, hq, hdraft⟩ := d.exists_mem_scalars_iff.mpr hwithin
      obtain ⟨-, rfl, -⟩ := Draft.scalar.inj hdraft
      exact ⟨q.type, List.mem_map_of_mem hq, Registry.not_means_iff.mpr hunknown⟩
  · rw [hsame, ensureKnown_map_type d.listed_scalars.sorted]
    simp only [Registry.not_means_iff]

/-- The type of an entry that a later one replaces is missing, and further to the right
that of a part. -/
theorem leftmost_unknown_type_replaced : ∃ s a,
    flatten "\x7b a: s:\" x,]\", *:i:5,a : ?[?, n] \x7d" = .ok s ∧ compile s = .ok a ∧
      Registry.ensureKnown ⟨[("i", .primitive .integer)]⟩ a.types = .error (.unknownType "s") := by
  obtain ⟨-, s, a, hflatten, hcompile, h⟩ :=
    leftmost_unknown_type wellFormed_repeatedDraft writtenAs_repeatedDraft (by decide)
  have hscalars : repeatedDraft.scalars = [⟨3, false, "s", some (.literal " x,]")⟩,
      ⟨9, false, "i", some (.bare "5")⟩, ⟨17, true, "", none⟩, ⟨19, false, "n", none⟩] := by
    decide
  refine ⟨s, a, hflatten, hcompile, ((h _).2 _).mpr ?_⟩
  rw [hscalars]
  refine ⟨_, List.mem_cons_self, ⟨by decide, by decide⟩, rfl, fun q' hq' hlt => ?_⟩
  revert q'
  simp

end TerseSchema
