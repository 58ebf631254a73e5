import Mathlib.Algebra.Order.BigOperators.Group.List
import Mathlib.Algebra.Order.Group.Nat
import TerseSchema.Proofs.Outline
import TerseSchema.Proofs.References

/-!
# Groups are read where they are written

A group leaves its number behind, and a number is read as a reference whoever wrote it.
If no scalar of a text reads as a number, then every reference that is followed is the
number of a group that is a term, met where the group was written: no entry is missing,
none is borrowed from elsewhere, and the text reads as it stands.  Otherwise a number is
followed that is no such group's.

## Main definitions

* `Outline.IsUnambiguous` — no scalar reads as a number.
* `Outline.tree`, `Outline.references` — the schema that is written, and the groups in
  the order in which they are met.
* `FlatSchema.Records` — the groups of pieces are recorded, inner ones first.

## Main results

* `term_in_place` — one term, and all terms below it.
* `references_eq_iff` — what is followed beyond the groups of a text was a number.
* `references_in_place` — **every reference that is followed is a group in its place.**
-/

namespace TerseSchema

open Piece

/-! ### What is written -/

namespace Outline

/-- No scalar reads as a number. -/
inductive IsUnambiguous : Outline → Prop
  | scalar {optional : Bool} {ps : List Piece} : Reference.parse? (flatText ps) = none →
      IsUnambiguous (.scalar optional ps)
  | array {optional : Bool} {number : Nat} {parts : List Outline} :
      (∀ part ∈ parts, IsUnambiguous part) → IsUnambiguous (.array optional number parts)
  | object {optional : Bool} {number : Nat} {entries : List (List Piece × Outline)} :
      (∀ e ∈ entries, IsUnambiguous e.2) → IsUnambiguous (.object optional number entries)

mutual

/-- The schema that is written, read in place. -/
def tree (literals : List (List Char)) : Outline → Tree
  | .scalar optional ps =>
    .scalar optional (String.ofList (flatText (splitColon ps).1))
      (Term.parseDefault literals (flatText (splitColon (splitColon ps).2).1))
  | .array optional _ parts => .array optional (partTrees literals parts)
  | .object optional _ entries =>
    .object optional (declaredFields (entryTrees literals entries))
      (wildcard? (entryTrees literals entries))

/-- The schemas of parts. -/
def partTrees (literals : List (List Char)) : List Outline → List Tree
  | [] => []
  | o :: os => o.tree literals :: partTrees literals os

/-- The schemas of entries. -/
def entryTrees (literals : List (List Char)) :
    List (List Piece × Outline) → List (String × Tree)
  | [] => []
  | (name, o) :: es =>
    (String.ofList (flatText name), o.tree literals) :: entryTrees literals es

end

theorem partTrees_eq_map (literals : List (List Char)) (os : List Outline) :
    partTrees literals os = os.map (tree literals) := by
  induction os with
  | nil => rfl
  | cons o os ih => rw [partTrees, ih, List.map_cons]

theorem entryTrees_eq_map (literals : List (List Char)) (es : List (List Piece × Outline)) :
    entryTrees literals es =
      es.map fun e => (String.ofList (flatText e.1), e.2.tree literals) := by
  induction es with
  | nil => rfl
  | cons e es ih => rw [entryTrees, ih, List.map_cons]

mutual

/-- The numbers of the groups that are terms, outer ones first. -/
def references : Outline → List Nat
  | .scalar _ _ => []
  | .array _ number parts => number :: partReferences parts
  | .object _ number entries => number :: entryReferences entries

/-- The groups of parts. -/
def partReferences : List Outline → List Nat
  | [] => []
  | o :: os => o.references ++ partReferences os

/-- The groups of entries. -/
def entryReferences : List (List Piece × Outline) → List Nat
  | [] => []
  | (_, o) :: es => o.references ++ entryReferences es

end

theorem partReferences_eq_flatMap (os : List Outline) :
    partReferences os = os.flatMap references := by
  induction os with
  | nil => rfl
  | cons o os ih => rw [partReferences, ih, List.flatMap_cons]

theorem entryReferences_eq_flatMap (es : List (List Piece × Outline)) :
    entryReferences es = es.flatMap fun e => e.2.references := by
  induction es with
  | nil => rfl
  | cons e es ih => rw [entryReferences, ih, List.flatMap_cons]

end Outline

/-! ### What is recorded -/

/-- The groups of pieces are recorded under their numbers, inner ones first, and all of
them below a bound. -/
structure FlatSchema.Records (s : FlatSchema) (bound : Nat) (ps : List Piece) : Prop where
  lookup : ∀ e ∈ entriesOf ps, s.lookups[e.2]? = some e.1
  below : ∀ e ∈ entriesOf ps, e.2 < bound
  sorted : (entriesOf ps).Pairwise fun e e' => e.2 < e'.2

theorem FlatSchema.Nests.records {s : FlatSchema} {text : String} {ps : List Piece}
    (h : s.Nests text ps) : s.Records s.lookups.length ps := by
  have hlookup : ∀ e ∈ entriesOf ps, s.lookups[e.2]? = some e.1 := by
    intro e he
    rw [h.entries] at he
    exact List.mk_mem_zipIdx_iff_getElem?.mp he
  refine ⟨hlookup, fun e he => ?_, ?_⟩
  · exact (List.getElem?_eq_some_iff.mp (hlookup e he)).1
  · have hnumbers : (s.lookups.zipIdx.map Prod.snd).Pairwise (· < ·) := by
      rw [List.zipIdx_map_snd]
      exact List.pairwise_lt_range'
    rw [h.entries]
    exact List.pairwise_map.mp hnumbers

section
variable {s : FlatSchema} {bound : Nat} {ps qs : List Piece}

theorem FlatSchema.Records.sublist (h : s.Records bound qs) (hs : ps.Sublist qs) :
    s.Records bound ps := by
  have hsub := entriesOf_sublist hs
  exact ⟨fun e he => h.lookup e (hsub.subset he), fun e he => h.below e (hsub.subset he),
    h.sorted.sublist hsub⟩

/-- A group is recorded behind everything that is in it. -/
theorem FlatSchema.Records.body {number : Nat} {kind : Bracket} {body : List Piece}
    (h : s.Records bound [.group number kind body]) : number < bound ∧
      s.lookups[number]? = some (recorded kind body) ∧ s.Records number body := by
  have hentries : entriesOf [.group number kind body] =
      entriesOf body ++ [(recorded kind body, number)] := List.append_nil _
  obtain ⟨hlookup, hbelow, hsorted⟩ := h
  rw [hentries] at hlookup hbelow hsorted
  obtain ⟨hbody, -, hcross⟩ := List.pairwise_append.mp hsorted
  have hmem : (recorded kind body, number) ∈
      entriesOf body ++ [(recorded kind body, number)] := by simp
  refine ⟨hbelow _ hmem, hlookup _ hmem, fun e he => ?_, fun e he => ?_, hbody⟩
  · exact hlookup e (List.mem_append_left _ he)
  · exact hcross e he _ (List.mem_singleton_self _)

/-- A term that is a group refers to the entry of the group, which has the terms that
the pieces have. -/
theorem FlatSchema.Records.reads {number : Nat} {kind : Bracket} {body : List Piece}
    (h : s.Records bound ps) (hs : s.Addressable)
    (hps : (unmark ps).2 = [.group number kind body]) :
    Term.parse s.literals (flatText ps) = ⟨(unmark ps).1, .reference number⟩ ∧
      s.group number = Group.parse s.literals (recorded kind body) ∧ number < bound ∧
      ∀ term ∈ termsOf kind body, s.Records number term := by
  have hgroup := h.sublist (unmark_sublist ps)
  rw [hps] at hgroup
  obtain ⟨hlt, hlookup, hbody⟩ := hgroup.body
  have hnumber : number < pow2 64 :=
    Nat.lt_of_lt_of_le (List.getElem?_eq_some_iff.mp hlookup).1 hs.1
  refine ⟨?_, ?_, hlt, fun term hterm => hbody.sublist (sublist_of_mem_termsOf hterm)⟩
  · rw [Term.parse_flatText, hps, flatText_cons, flatText_nil, List.append_nil, Piece.text,
      Term.parseContent, Reference.parse?_digits hnumber]
  · rw [FlatSchema.group, List.getD_eq_getElem?_getD, hlookup, Option.getD_some]

end

/-! ### Terms of a group -/

namespace Outline

variable {ps body : List Piece} {number : Nat} {kind : Bracket}

theorem references_group (h : (unmark ps).2 = [.group number kind body]) :
    (outline ps).references =
      number :: (termsOf kind body).flatMap fun term => (outline term).references := by
  cases kind with
  | square =>
    rw [outline_square h, references, partReferences_eq_flatMap, List.flatMap_map]
    rfl
  | curly =>
    rw [outline_curly h, references, entryReferences_eq_flatMap, List.flatMap_map, termsOf,
      List.flatMap_map]

theorem isUnambiguous_group (h : (unmark ps).2 = [.group number kind body]) :
    (outline ps).IsUnambiguous ↔ ∀ term ∈ termsOf kind body, (outline term).IsUnambiguous := by
  cases kind with
  | square =>
    rw [outline_square h]
    refine Iff.trans ⟨fun hall => ?_, .array⟩ List.forall_mem_map
    cases hall with
    | array hall => exact hall
  | curly =>
    rw [outline_curly h, termsOf, List.forall_mem_map]
    refine Iff.trans ⟨fun hall => ?_, .object⟩ List.forall_mem_map
    cases hall with
    | object hall => exact hall

theorem isUnambiguous_scalar (h : ∀ number kind body, (unmark ps).2 ≠ [.group number kind body]) :
    (outline ps).IsUnambiguous ↔ Reference.parse? (flatText (unmark ps).2) = none := by
  rw [outline_scalar h]
  refine ⟨fun hall => ?_, .scalar⟩
  cases hall with
  | scalar hnone => exact hnone

end Outline

theorem Group.terms_recorded (literals : List (List Char)) (kind : Bracket) (body : List Piece) :
    (Group.parse literals (recorded kind body)).terms =
      (termsOf kind body).map fun term => Term.parse literals (flatText term) := by
  rw [Group.parse_recorded]
  cases kind with
  | square => rfl
  | curly =>
    simp only [Group.terms, termsOf, List.map_map]
    rfl

/-! ### Lists of lists -/

section
variable {α β : Type} {f g : α → List β} {xs : List α}

theorem length_flatMap_le (h : ∀ x ∈ xs, (f x).length ≤ (g x).length) :
    (xs.flatMap f).length ≤ (xs.flatMap g).length := by
  rw [List.length_flatMap, List.length_flatMap]
  exact List.sum_le_sum h

/-- Where no list is longer than its fellow, the lists are the same if all of them behind
one another are. -/
theorem eq_of_flatMap_eq (hle : ∀ x ∈ xs, (f x).length ≤ (g x).length)
    (h : xs.flatMap g = xs.flatMap f) : ∀ x ∈ xs, g x = f x := by
  induction xs with
  | nil => exact List.forall_mem_nil _
  | cons x xs ih =>
    obtain ⟨hx, hxs⟩ := List.forall_mem_cons.mp hle
    have hrest := length_flatMap_le hxs
    have hlength := congrArg List.length h
    rw [List.flatMap_cons, List.flatMap_cons, List.length_append, List.length_append] at hlength
    have heq : (g x).length = (f x).length := by omega
    obtain ⟨hfirst, hmore⟩ := List.append_inj h heq
    exact List.forall_mem_cons.mpr ⟨hfirst, ih hxs hmore⟩

end

/-! ### References -/

section
variable {s : FlatSchema} {bound : Nat}

/-- A reference in bounds is met, and then all that its entry refers to. -/
theorem visits_reference {index : Nat} (h : index < bound) (optional : Bool) :
    visits s bound ⟨optional, .reference index⟩ =
      ⟨index, bound⟩ :: (s.group index).terms.flatMap (visits s index) := by
  rw [visits]
  simp only [if_pos h]

/-- The references met below a term that is a group. -/
theorem FlatSchema.Records.visits_group (hs : s.Addressable) {ps body : List Piece} {number : Nat}
    {kind : Bracket} (h : s.Records bound ps) (hps : (unmark ps).2 = [.group number kind body]) :
    (TerseSchema.visits s bound (Term.parse s.literals (flatText ps))).map Visit.index =
      number :: (termsOf kind body).flatMap fun term =>
        (TerseSchema.visits s number (Term.parse s.literals (flatText term))).map Visit.index := by
  obtain ⟨hparse, hgroup, hlt, -⟩ := h.reads hs hps
  rw [hparse, visits_reference hlt, hgroup, Group.terms_recorded, List.flatMap_map,
    List.map_cons, List.map_flatMap]

/-- The references met below a scalar that reads as no number. -/
theorem visits_scalar {ps : List Piece} (h : Reference.parse? (flatText (unmark ps).2) = none) :
    visits s bound (Term.parse s.literals (flatText ps)) = [] := by
  rw [Term.parse_flatText, Term.parseContent_flatText s.literals h, visits]

/-- No fewer references are met than groups are written as terms. -/
theorem length_references_le (hs : s.Addressable) (ps : List Piece) : ∀ bound, s.Records bound ps →
    (outline ps).references.length ≤
      ((visits s bound (Term.parse s.literals (flatText ps))).map Visit.index).length := by
  induction ps using term_induct with
  | h ps ih =>
    intro bound h
    rcases group_or_scalar ps with ⟨number, kind, body, hps⟩ | hps
    · obtain ⟨-, -, -, hterms⟩ := h.reads hs hps
      rw [Outline.references_group hps, h.visits_group hs hps, List.length_cons, List.length_cons]
      refine Nat.succ_le_succ (length_flatMap_le fun term hterm => ?_)
      exact ih number kind body hps term hterm number (hterms term hterm)
    · rw [outline_scalar hps]
      exact Nat.zero_le _

end

section
variable {s : FlatSchema}

/-- **The references that are met are the groups of a text in their places**, exactly if no
scalar reads as a number. -/
theorem references_eq_iff (hs : s.Addressable) (ps : List Piece) : ∀ bound, s.Records bound ps →
    ((visits s bound (Term.parse s.literals (flatText ps))).map Visit.index =
      (outline ps).references ↔ (outline ps).IsUnambiguous) := by
  induction ps using term_induct with
  | h ps ih =>
    intro bound h
    rcases group_or_scalar ps with ⟨number, kind, body, hps⟩ | hps
    · obtain ⟨-, -, -, hterms⟩ := h.reads hs hps
      have ih := fun term hterm => ih number kind body hps term hterm number (hterms term hterm)
      rw [Outline.references_group hps, h.visits_group hs hps, Outline.isUnambiguous_group hps]
      constructor
      · intro he term hterm
        refine (ih term hterm).mp (eq_of_flatMap_eq ?_ (List.cons.inj he).2 term hterm)
        exact fun term hterm => length_references_le hs term number (hterms term hterm)
      · intro hall
        refine congrArg _ (List.flatMap_congr fun term hterm => ?_)
        exact (ih term hterm).mpr (hall term hterm)
    · rw [Outline.isUnambiguous_scalar hps, outline_scalar hps]
      constructor
      · intro he
        cases hread : Reference.parse? (flatText (unmark ps).2) with
        | none => rfl
        | some index =>
          -- a number is followed, although no group is written
          rw [Term.parse_flatText, Term.parseContent, hread, visits] at he
          cases he
      · intro hnone
        rw [visits_scalar hnone]
        rfl

/-! ### Trees -/

theorem groupTree_array {α : Type} {term : Term → Except SchemaError Tree} {xs : List α}
    {f : α → Term} {g : α → Tree} (h : ∀ x ∈ xs, term (f x) = .ok (g x)) (optional : Bool) :
    groupTree term optional (.array (xs.map f)) = .ok (.array optional (xs.map g)) := by
  have hall : (xs.map f).mapM term = .ok (xs.map g) := by
    rw [mapM_eq_ok_iff, List.forall₂_map_left_iff, List.forall₂_map_right_iff, List.forall₂_same]
    exact h
  rw [groupTree, hall]
  rfl

theorem groupTree_object {α : Type} {term : Term → Except SchemaError Tree} {xs : List α}
    {name : α → String} {f : α → Term} {g : α → Tree} (h : ∀ x ∈ xs, term (f x) = .ok (g x))
    (optional : Bool) :
    groupTree term optional (.object (xs.map fun x => (name x, f x))) =
      .ok (.object optional (declaredFields (xs.map fun x => (name x, g x)))
        (wildcard? (xs.map fun x => (name x, g x)))) := by
  have hall : (xs.map fun x => (name x, f x)).mapM (fun e => (do return (e.1, ← term e.2) :
      Except SchemaError (String × Tree))) = .ok (xs.map fun x => (name x, g x)) := by
    rw [mapM_eq_ok_iff, List.forall₂_map_left_iff, List.forall₂_map_right_iff, List.forall₂_same]
    intro x hx
    rw [h x hx]
    rfl
  rw [groupTree, hall]
  rfl

/-- **A term reads as it stands**, if no scalar reads as a number. -/
theorem term_in_place (hs : s.Addressable) (ps : List Piece) : ∀ bound, s.Records bound ps →
    (outline ps).IsUnambiguous →
    termTree (entryTree s bound) (Term.parse s.literals (flatText ps)) =
      .ok ((outline ps).tree s.literals) := by
  induction ps using term_induct with
  | h ps ih =>
    intro bound h hclear
    rcases group_or_scalar ps with ⟨number, kind, body, hps⟩ | hps
    · obtain ⟨hparse, hgroup, hlt, hterms⟩ := h.reads hs hps
      have hclear := (Outline.isUnambiguous_group hps).mp hclear
      have ih := fun term hterm =>
        ih number kind body hps term hterm number (hterms term hterm) (hclear term hterm)
      rw [hparse]
      show entryTree s bound number _ = _
      rw [entryTree_eq, if_pos hlt, hgroup, Group.parse_recorded]
      cases kind with
      | square =>
        rw [outline_square hps, Outline.tree, Outline.partTrees_eq_map, List.map_map]
        exact groupTree_array ih _
      | curly =>
        rw [outline_curly hps, Outline.tree, Outline.entryTrees_eq_map, List.map_map]
        refine groupTree_object (fun f hf => ?_) _
        exact ih f.2 (List.mem_map_of_mem hf)
    · have hnone := (Outline.isUnambiguous_scalar hps).mp hclear
      rw [Term.parse_flatText, Term.parseContent_flatText s.literals hnone, outline_scalar hps]
      rfl

end

/-! ### Whole texts -/

/-- Every number of a flat schema fits 64 bits, if the length of its text does. -/
theorem addressable_of_flatten {text : String} {s : FlatSchema} (h : flatten text = .ok s)
    (hlength : text.length ≤ pow2 64) : s.Addressable := by
  cases htokens : tokenize text.toList with
  | error e =>
    rw [flatten, htokens] at h
    cases h
  | ok tokens =>
    cases hrun : ({} : Assembly).run tokens with
    | error e =>
      rw [flatten, htokens, Except.bind, hrun] at h
      cases h
    | ok a =>
      rw [flatten, htokens, Except.bind, hrun] at h
      obtain ⟨-, rfl⟩ := Assembly.groups_eq_nil_of_finish h
      have hsize := Assembly.size_run hrun
      have htext := length_tokens_le htokens
      rw [String.length_toList] at htext
      simp only [Assembly.size, List.length_nil] at hsize
      exact ⟨show a.lookups.length ≤ pow2 64 by omega, show a.literals.length ≤ pow2 64 by omega⟩

/-- **Every reference that is followed is a group in its place**, exactly if no scalar of
the text reads as a number.  No reference then is out of bounds, compiling succeeds, and
the arena seen from its root is the schema that is written, every group read where it
stands. -/
theorem references_in_place {text : String} {s : FlatSchema} (h : flatten text = .ok s)
    (hlength : text.length ≤ pow2 64) : (∃ ps, s.Nests text ps) ∧ ∀ ps, s.Nests text ps →
      (s.visits.map Visit.index = (outline ps).references ↔ (outline ps).IsUnambiguous) ∧
      ((outline ps).IsUnambiguous → (∀ v ∈ s.visits, v.index < v.bound) ∧
        ∃ a, compile s = .ok a ∧ a.tree = (outline ps).tree s.literals) := by
  have hs := addressable_of_flatten h hlength
  refine ⟨exists_nests h, fun ps hnests => ?_⟩
  have hroot : s.root = Term.parse s.literals (flatText ps) := by
    rw [FlatSchema.root, hnests.flat]
  refine ⟨?_, fun hclear => ?_⟩
  · rw [FlatSchema.visits, hroot]
    exact references_eq_iff hs ps _ hnests.records
  · have helaborate : s.elaborate = .ok ((outline ps).tree s.literals) := by
      rw [FlatSchema.elaborate, hroot]
      exact term_in_place hs ps _ hnests.records hclear
    have hmeets := elaborate_meets s
    rw [helaborate] at hmeets
    exact ⟨hmeets, compile_of_elaborate helaborate⟩

/-- A number behind a colon is a default and no reference. -/
theorem references_in_place_nested : ∃ s a, flatten "\x7ba:[i:0],b:?\x7bc:s\x7d\x7d" = .ok s ∧
    s.visits.map Visit.index = [2, 0, 1] ∧ compile s = .ok a ∧
    a.tree = .object false
      [("a", .array false [.scalar false "i" (some (.bare "0"))]),
        ("b", .object true [("c", .scalar false "s" none)] none)] none := by
  let number : List Piece := [.mark 'i' (by decide), .mark ':' (by decide), .mark '0' (by decide)]
  let word : List Piece := [.mark 's' (by decide)]
  let field : List Piece := .mark 'c' (by decide) :: .mark ':' (by decide) :: word
  let body : List Piece := [.mark 'a' (by decide), .mark ':' (by decide),
    .group 0 .square number, .mark ',' (by decide), .mark 'b' (by decide), .mark ':' (by decide),
    .mark '?' (by decide), .group 1 .curly field]
  let ps : List Piece := [.group 2 .curly body]
  let s : FlatSchema := ⟨"2".toList,
    ["[i:0]".toList, "\x7bc:s\x7d".toList, "\x7ba:0,b:?1\x7d".toList], []⟩
  have hflatten : flatten "\x7ba:[i:0],b:?\x7bc:s\x7d\x7d" = .ok s := by decide +kernel
  have hnests : s.Nests "\x7ba:[i:0],b:?\x7bc:s\x7d\x7d" ps := by
    refine ⟨?_, by decide +kernel, by decide +kernel, by decide +kernel⟩
    show Spells _ ['{', 'a', ':', '[', 'i', ':', '0', ']', ',', 'b', ':', '?', '{', 'c', ':', 's',
      '}', '}']
    repeat refine .mark _ ?_
    exact .nil
  have hword : outline word = .scalar false word := outline_scalar nofun
  have hnumber : outline number = .scalar false number := outline_scalar nofun
  have hinner : outline [.group 0 .square number] = .array false 0 [outline number] :=
    outline_square (show (unmark _).2 = [.group 0 .square number] from rfl)
  have hother : outline [.mark '?' (by decide), .group 1 .curly field] =
      .object true 1 [([.mark 'c' (by decide)], outline word)] :=
    outline_curly (show (unmark _).2 = [.group 1 .curly field] from rfl)
  have hps : outline ps = .object false 2
      [([.mark 'a' (by decide)], outline [.group 0 .square number]),
        ([.mark 'b' (by decide)], outline [.mark '?' (by decide), .group 1 .curly field])] :=
    outline_curly (show (unmark _).2 = [.group 2 .curly body] from rfl)
  rw [hinner, hother, hword, hnumber] at hps
  have hclear : (outline ps).IsUnambiguous := by
    rw [hps]
    refine .object ?_
    simp only [List.forall_mem_cons]
    exact ⟨.array (List.forall_mem_singleton.mpr (.scalar (by decide))),
      .object (List.forall_mem_singleton.mpr (.scalar (by decide))), List.forall_mem_nil _⟩
  obtain ⟨hreferences, hread⟩ := (references_in_place hflatten (by decide)).2 ps hnests
  obtain ⟨-, a, ha, htree⟩ := hread hclear
  refine ⟨s, a, hflatten, ?_, ha, ?_⟩
  · rw [hreferences.mpr hclear, hps]
    rfl
  · rw [htree, hps]
    rfl

/-- A number that is typed is followed: to no entry at all, or to a group that was written
elsewhere. -/
theorem typed_numbers_are_followed :
    (∃ s, flatten "[5]" = .ok s ∧ compile s = .error (.danglingReference 5 0)) ∧
    ∃ s, flatten "[[i],0]" = .ok s ∧ compile s =
      .ok ⟨[.scalar false "i" none, .array false [0], .array false [1, 1]], 2⟩ := by
  refine ⟨⟨⟨"0".toList, ["[5]".toList], []⟩, ?_, ?_⟩,
    ⟨"1".toList, ["[i]".toList, "[0,0]".toList], []⟩, ?_, ?_⟩
  · decide +kernel
  · decide +kernel
  · decide +kernel
  · decide +kernel

end TerseSchema
