import Mathlib.Data.List.TakeDrop
import Mathlib.Data.List.TakeWhile
import TerseSchema.Proofs.Draft
import TerseSchema.Proofs.References

/-!
# Tables whose references lead down

Compiling follows references and always ends: an entry may refer only to entries below
it, so that no more entries are followed inside each other than the table has.  It
succeeds exactly if every reference that is met obeys this, which is a property of the
texts of the table and of what can be reached in it, whatever is said of entries that
nothing refers to.

## Main definitions

* `RefersTo`, `termTexts` — the reference that a text is, and the terms of a body.
* `FlatSchema.Leads`, `FlatSchema.Reached` — the graph of the entries.
* `FlatSchema.Descends` — every reference met leads to a lower number.
* `compileNested` — compiling with a limit on the calls that stand inside each other.

## Main results

* `compileNested_eq` — the limit is never met.
* `visits_in_bounds_iff` — no reference that is met is out of bounds exactly if all
  references lead down.
* `compile_accepts_what_descends` — **compiling ends, and accepts what descends.**
-/

namespace TerseSchema

/-! ### Texts -/

/-- A text refers to an entry: behind one `?` at most, it is a run of ASCII digits, and
the number that they denote has no more than 64 bits. -/
def RefersTo (text : List Char) (index : Nat) : Prop :=
  ∃ digits, (text = digits ∨ text = '?' :: digits) ∧ IsNumber digits ∧
    Nat.ofDigitChars 10 digits 0 = index ∧ index < pow2 64

/-- The terms of a body, as written: the parts of an array, or what follows the first
colon of each entry of an object that is not empty. -/
def termTexts (body : List Char) : List (List Char) :=
  let pieces := (Group.inner body).splitOn ','
  if body.head? = some '[' then pieces
  else (pieces.filter (· ≠ [])).map fun entry => (entry.dropWhile (· ≠ ':')).drop 1

theorem Reference.parse?_eq_some_iff {text : List Char} {index : Nat} :
    Reference.parse? text = some index ↔ IsNumber text ∧
      Nat.ofDigitChars 10 text 0 = index ∧ index < pow2 64 := by
  have hnumber : (text ≠ [] ∧ text.all Char.isDigit) ↔ IsNumber text := by
    rw [IsNumber, List.all_eq_true]
  rw [Reference.parse?]
  by_cases h : IsNumber text
  · rw [if_pos (hnumber.mpr h)]
    simp only
    split
    · next hlt =>
      rw [Option.some.injEq]
      exact ⟨fun he => ⟨h, he, he ▸ hlt⟩, fun he => he.2.1⟩
    · next hge =>
      exact ⟨fun he => (by cases he), fun he => absurd (he.2.1 ▸ he.2.2) hge⟩
  · rw [if_neg (mt hnumber.mp h)]
    exact ⟨fun he => (by cases he), fun he => absurd he.1 h⟩

/-- What a term without its mark says is a reference exactly if its text reads as one. -/
theorem Term.parseContent_eq_reference_iff {literals : List (List Char)} {text : List Char}
    {index : Nat} :
    Term.parseContent literals text = .reference index ↔ Reference.parse? text = some index := by
  rw [Term.parseContent]
  cases Reference.parse? text with
  | some number => rw [Content.reference.injEq, Option.some.injEq]
  | none => simp

/-- **A term is a reference exactly if its text refers to an entry.** -/
theorem Term.content_parse_eq_reference_iff {literals : List (List Char)} {text : List Char}
    {index : Nat} :
    (Term.parse literals text).content = .reference index ↔ RefersTo text index := by
  unfold Term.parse
  split
  · next rest =>
    rw [Term.parseContent_eq_reference_iff, Reference.parse?_eq_some_iff]
    constructor
    · exact fun h => ⟨rest, .inr rfl, h⟩
    · rintro ⟨digits, rfl | htext, hdigits, hindex⟩
      · -- a mark is no digit
        exact absurd (hdigits.2 '?' List.mem_cons_self) (by decide)
      · obtain rfl : rest = digits := (List.cons.inj htext).2
        exact ⟨hdigits, hindex⟩
  · next hmark =>
    rw [Term.parseContent_eq_reference_iff, Reference.parse?_eq_some_iff]
    constructor
    · exact fun h => ⟨text, .inl rfl, h⟩
    · rintro ⟨digits, rfl | rfl, h⟩
      · exact h
      · exact absurd rfl (hmark digits)

/-- The terms of a group are read off the terms of its body. -/
theorem Group.terms_parse (literals : List (List Char)) (body : List Char) :
    (Group.parse literals body).terms = (termTexts body).map (Term.parse literals) := by
  unfold Group.parse termTexts
  split
  · rfl
  · rw [Group.terms, List.map_map, List.map_map]
    refine List.map_congr_left fun entry _ => ?_
    rw [Function.comp_apply, Function.comp_apply, Group.parseEntry,
      List.span_eq_takeWhile_dropWhile]

/-! ### The graph of the entries -/

namespace FlatSchema

/-- Entry `index` has a term that refers to entry `lower`. -/
def Leads (s : FlatSchema) (index lower : Nat) : Prop :=
  ∃ body, s.lookups[index]? = some body ∧ ∃ text ∈ termTexts body, RefersTo text lower

/-- The entries that the root leads to, and those that they lead to. -/
inductive Reached (s : FlatSchema) : Nat → Prop
  | root {index : Nat} : RefersTo s.flat index → index < s.lookups.length → Reached s index
  | step {index lower : Nat} : Reached s index → s.Leads index lower → lower < s.lookups.length →
      Reached s lower

/-- The root refers to an entry of the table, if to any, and every entry that is reached
refers to lower ones only. -/
structure Descends (s : FlatSchema) : Prop where
  root : ∀ index, RefersTo s.flat index → index < s.lookups.length
  entry : ∀ index, s.Reached index → ∀ lower, s.Leads index lower → lower < index

variable {s : FlatSchema}

theorem Reached.lt {index : Nat} (h : s.Reached index) : index < s.lookups.length := by
  cases h with
  | root _ hlt => exact hlt
  | step _ _ hlt => exact hlt

theorem getElem?_lookups {index : Nat} (h : index < s.lookups.length) :
    s.lookups[index]? = some (s.lookups.getD index []) := by
  rw [List.getD_eq_getElem?_getD, List.getElem?_eq_getElem h, Option.getD_some]

/-- An entry of the table leads where its terms do. -/
theorem leads_iff {index lower : Nat} (h : index < s.lookups.length) :
    s.Leads index lower ↔ ∃ t ∈ (s.group index).terms, t.content = .reference lower := by
  have hbody := getElem?_lookups h
  rw [Leads, group, Group.terms_parse]
  constructor
  · rintro ⟨body, hbody', text, htext, hrefers⟩
    obtain rfl := Option.some.inj (hbody.symm.trans hbody')
    exact ⟨_, List.mem_map_of_mem htext, Term.content_parse_eq_reference_iff.mpr hrefers⟩
  · rintro ⟨t, ht, hcontent⟩
    obtain ⟨text, htext, rfl⟩ := List.mem_map.mp ht
    exact ⟨_, hbody, text, htext, Term.content_parse_eq_reference_iff.mp hcontent⟩

end FlatSchema

/-! ### The references that are met -/

section
variable {s : FlatSchema} {bound index : Nat} {t : Term}

theorem self_mem_visits (h : t.content = .reference index) : ⟨index, bound⟩ ∈ visits s bound t := by
  rw [visits, h]
  exact List.mem_cons_self

/-- A reference in bounds leads on to what the terms of its entry meet. -/
theorem mem_visits_of_mem_terms (h : t.content = .reference index) (hlt : index < bound) {u : Term}
    (hu : u ∈ (s.group index).terms) {v : Visit} (hv : v ∈ visits s index u) :
    v ∈ visits s bound t := by
  rw [visits, h]
  simp only [if_pos hlt]
  exact List.mem_cons_of_mem _ (List.mem_flatMap.mpr ⟨u, hu, hv⟩)

/-- What is met at a term: its own reference, or what the terms of its entry meet. -/
theorem mem_visits_cases {v : Visit} (h : v ∈ visits s bound t) :
    ∃ index, t.content = .reference index ∧ (v = ⟨index, bound⟩ ∨
      index < bound ∧ ∃ u ∈ (s.group index).terms, v ∈ visits s index u) := by
  rw [visits] at h
  split at h
  · cases h
  · next index hcontent =>
    refine ⟨index, hcontent, ?_⟩
    rcases List.mem_cons.mp h with h | h
    · exact .inl h
    · split at h
      · next hlt =>
        obtain ⟨u, hu, hv⟩ := List.mem_flatMap.mp h
        exact .inr ⟨hlt, u, hu, hv⟩
      · cases h

/-- If nothing is met out of bounds, all terms of the entries that are reached are met. -/
theorem visits_of_reached (h : ∀ v ∈ s.visits, v.index < v.bound) (hreached : s.Reached index)
    (ht : t ∈ (s.group index).terms) : ∀ v ∈ visits s index t, v ∈ s.visits := by
  induction hreached generalizing t with
  | root hrefers hlt =>
    intro v hv
    exact mem_visits_of_mem_terms (Term.content_parse_eq_reference_iff.mpr hrefers) hlt ht hv
  | @step index lower hreached hleads _ ih =>
    obtain ⟨u, hu, hcontent⟩ := (FlatSchema.leads_iff hreached.lt).mp hleads
    have hlower : lower < index := h _ (ih hu _ (self_mem_visits hcontent))
    intro v hv
    exact ih hu v (mem_visits_of_mem_terms hcontent hlower ht hv)

/-- Where references lead down, none is met out of bounds. -/
theorem visits_of_descends (h : s.Descends) (t : Term)
    (ht : ∀ index, t.content = .reference index → index < bound ∧ s.Reached index) :
    ∀ v ∈ visits s bound t, v.index < v.bound := by
  -- every entry followed is the bound of the next
  induction bound using Nat.strongRecOn generalizing t with
  | _ bound ih =>
    intro v hv
    obtain ⟨index, hcontent, rfl | ⟨hlt, u, hu, hv⟩⟩ := mem_visits_cases hv
    · exact (ht index hcontent).1
    · have hreached := (ht index hcontent).2
      refine ih index hlt u (fun lower hlower => ?_) v hv
      have hleads := (FlatSchema.leads_iff hreached.lt).mpr ⟨u, hu, hlower⟩
      have hdown := h.entry index hreached lower hleads
      exact ⟨hdown, .step hreached hleads (Nat.lt_trans hdown hreached.lt)⟩

/-- **No reference that is met is out of bounds exactly if all references lead down.** -/
theorem visits_in_bounds_iff (s : FlatSchema) :
    (∀ v ∈ s.visits, v.index < v.bound) ↔ s.Descends := by
  constructor
  · intro h
    constructor
    · intro index hrefers
      exact h _ (self_mem_visits (Term.content_parse_eq_reference_iff.mpr hrefers))
    · intro index hreached lower hleads
      obtain ⟨t, ht, hcontent⟩ := (FlatSchema.leads_iff hreached.lt).mp hleads
      exact h _ (visits_of_reached h hreached ht _ (self_mem_visits hcontent))
  · intro h
    refine visits_of_descends h s.root fun index hcontent => ?_
    have hrefers := Term.content_parse_eq_reference_iff.mp hcontent
    exact ⟨h.root index hrefers, .root hrefers (h.root index hrefers)⟩

end

/-! ### Calls inside each other -/

/-- Places an entry like `placeEntry`, each reference by a call of its own.  It has a
fault of its own where more than `depth` calls would stand inside each other. -/
def placeNested (s : FlatSchema) (fault : SchemaError) (depth bound index : Nat)
    (optional : Bool) : Build Nat :=
  match depth with
  | 0 => throw fault
  | depth + 1 =>
    if index < bound then do
      match (← get).placed.lookup (index, optional) with
      | some id => return id
      | none =>
        let node ← groupNode (placeTerm (placeNested s fault depth index)) optional (s.group index)
        let id ← placeNode node
        modify fun b => { b with placed := ((index, optional), id) :: b.placed }
        return id
    else throw (.danglingReference index bound)

/-- Compiles like `compile`, but with a fault of its own where more than `depth` calls
would stand inside each other. -/
def compileNested (s : FlatSchema) (fault : SchemaError) (depth : Nat) :
    Except SchemaError Arena := do
  let (root, b) ← (placeTerm (placeNested s fault depth s.lookups.length) s.root).run {}
  return ⟨b.nodes, root⟩

/-- The entries above one do not matter for placing it. -/
theorem placeEntry_of_lt {s : FlatSchema} {bound index : Nat} (h : index < bound)
    (optional : Bool) :
    placeEntry s bound index optional = placeEntry s (index + 1) index optional := by
  induction bound with
  | zero => exact absurd h (Nat.not_lt_zero index)
  | succ below ih =>
    rcases Nat.lt_succ_iff_lt_or_eq.mp h with hlt | rfl
    · rw [placeEntry, if_pos hlt, ih hlt]
    · rfl

/-- An entry that is not below the bound is not placed. -/
theorem placeEntry_of_le {s : FlatSchema} {bound index : Nat} (h : bound ≤ index)
    (optional : Bool) :
    placeEntry s bound index optional = throw (.danglingReference index bound) := by
  cases bound with
  | zero => rfl
  | succ below => rw [placeEntry, if_neg (by omega), if_pos (by omega)]

/-- **A call for each entry below the bound is enough**, as every call has a lower one. -/
theorem placeNested_eq (s : FlatSchema) (fault : SchemaError) : ∀ {depth bound : Nat},
    bound < depth → placeNested s fault depth bound = placeEntry s bound := by
  intro depth
  induction depth with
  | zero => exact fun h => absurd h (Nat.not_lt_zero _)
  | succ depth ih =>
    intro bound hdepth
    funext index optional
    rw [placeNested]
    by_cases hlt : index < bound
    · have hbelow : placeNested s fault depth index = placeEntry s index := ih (by omega)
      have hself : ¬ index < index := Nat.lt_irrefl index
      rw [if_pos hlt, hbelow, placeEntry_of_lt hlt]
      exact ((if_neg hself).trans (if_neg (not_not_intro rfl))).symm
    · rw [if_neg hlt, placeEntry_of_le (Nat.le_of_not_lt hlt)]

/-- Compiling never has more calls inside each other than the table has entries, and one. -/
theorem compileNested_eq (s : FlatSchema) (fault : SchemaError) {depth : Nat}
    (h : s.lookups.length < depth) : compileNested s fault depth = compile s := by
  rw [compileNested, compile, placeNested_eq s fault h]

/-! ### What is accepted -/

/-- Digits that denote too large a number are the name of a type. -/
theorem Term.parseContent_of_le {literals : List (List Char)} {digits : List Char}
    (hdigits : IsNumber digits) (h : pow2 64 ≤ Nat.ofDigitChars 10 digits 0) :
    Term.parseContent literals digits = .scalar (String.ofList digits) none := by
  have hnone : Reference.parse? digits = none := by
    rw [Option.eq_none_iff_forall_ne_some]
    intro index hindex
    obtain ⟨-, hnumber, hlt⟩ := Reference.parse?_eq_some_iff.mp hindex
    omega
  have hcolon : ∀ c ∈ digits, decide (c ≠ ':') = true := by
    intro c hc
    rw [decide_eq_true_iff]
    rintro rfl
    exact absurd (hdigits.2 ':' hc) (by decide)
  rw [Term.parseContent, hnone]
  simp only [List.span_eq_takeWhile_dropWhile, List.takeWhile_eq_self_iff.mpr hcolon,
    List.dropWhile_eq_nil_iff.mpr hcolon]
  rfl

/-- Compiling succeeds on what descends, and meets a reference out of bounds on anything
else. -/
theorem compile_cases (s : FlatSchema) :
    ((∃ a, compile s = .ok a) ∧ s.Descends) ∨
      (∃ index bound, bound ≤ index ∧ compile s = .error (.danglingReference index bound)) ∧
        ¬ s.Descends := by
  have htree := compile_map_tree s
  have hmeets := elaborate_meets s
  cases hc : compile s with
  | ok a =>
    rw [hc] at htree
    rw [← htree] at hmeets
    exact .inl ⟨⟨a, rfl⟩, (visits_in_bounds_iff s).mp hmeets⟩
  | error e =>
    rw [hc] at htree
    rw [← htree] at hmeets
    obtain ⟨v, hv, rfl⟩ := hmeets
    have hle : v.bound ≤ v.index := by simpa [Visit.dangles] using List.find?_some hv
    refine .inr ⟨⟨v.index, v.bound, hle, rfl⟩, fun h => ?_⟩
    have hlt := (visits_in_bounds_iff s).mpr h v (List.mem_of_find?_eq_some hv)
    exact Nat.not_lt_of_le hle hlt

/-- **Compiling ends, and accepts what descends.**  Whatever the texts of a flat schema
are, no more calls stand inside each other than its table has entries, and one.  Compiling
succeeds exactly if the root refers to an entry of the table, if to any, and every entry
that is reached refers to lower ones only; otherwise a reference is met that is not below
its bound.  Digits that denote a number of more than 64 bits are no reference, but the
name of a type. -/
theorem compile_accepts_what_descends (s : FlatSchema) :
    (∀ fault depth, s.lookups.length < depth → compileNested s fault depth = compile s) ∧
    ((∃ a, compile s = .ok a) ↔ s.Descends) ∧
    ((∃ index bound, bound ≤ index ∧ compile s = .error (.danglingReference index bound)) ↔
      ¬ s.Descends) ∧
    ∀ digits, IsNumber digits → pow2 64 ≤ Nat.ofDigitChars 10 digits 0 →
      Term.parse s.literals digits = ⟨false, .scalar (String.ofList digits) none⟩ ∧
        Term.parse s.literals ('?' :: digits) = ⟨true, .scalar (String.ofList digits) none⟩ := by
  refine ⟨fun fault depth h => compileNested_eq s fault h, ?_, ?_, fun digits hdigits h => ?_⟩
  · obtain ⟨ha, hdown⟩ | ⟨⟨index, bound, -, he⟩, hdown⟩ := compile_cases s
    · exact iff_of_true ha hdown
    · refine iff_of_false (fun ⟨a, ha⟩ => ?_) hdown
      cases ha.symm.trans he
  · obtain ⟨⟨a, ha⟩, hdown⟩ | ⟨he, hdown⟩ := compile_cases s
    · refine iff_of_false (fun ⟨index, bound, _, he⟩ => ?_) (not_not_intro hdown)
      cases ha.symm.trans he
    · exact iff_of_true he hdown
  · have hmark : ∀ rest, digits ≠ '?' :: rest := by
      rintro rest rfl
      exact absurd (hdigits.2 '?' List.mem_cons_self) (by decide)
    have hcontent : Term.parseContent s.literals digits =
        .scalar (String.ofList digits) none := Term.parseContent_of_le hdigits h
    constructor
    · rw [Term.parse, hcontent]
      exact hmark
    · rw [Term.parse, hcontent]

/-- A table whose second entry refers to itself, but is not reached; the first has the
least number of 65 bits for a type. -/
def loopTable : FlatSchema :=
  ⟨"?00".toList, ["[s,18446744073709551616]".toList, "[1]".toList], []⟩

theorem compile_accepts_what_descends_loopTable :
    (∀ fault, compileNested loopTable fault 3 = compile loopTable) ∧ loopTable.Descends ∧
      Term.parse [] "18446744073709551616".toList =
        ⟨false, .scalar "18446744073709551616" none⟩ := by
  obtain ⟨hnested, haccepts, -, hnumber⟩ := compile_accepts_what_descends loopTable
  have hcompile : compile loopTable = .ok ⟨[.scalar false "s" none,
      .scalar false "18446744073709551616" none, .array true [0, 1]], 2⟩ := by
    decide +kernel
  refine ⟨fun fault => hnested fault 3 (by decide), haccepts.mp ⟨_, hcompile⟩, ?_⟩
  exact (hnumber "18446744073709551616".toList (by decide) (by decide)).1

end TerseSchema
