import TerseSchema.Proofs.Descent
import TerseSchema.Proofs.Origins

/-!
# What a flat schema says of its compiled form

A flat schema answers two questions by itself: which entry its root refers to, and which
literal a placeholder stands for.  Compiling reads the same texts anew, term by term.  The
answers agree on all texts, also on those that no schema text is ever flattened to: digits
led by zeros, numbers past the end of a table or of too many bits, and a `$` or a `?` with
anything behind it.

## Main definitions

* `unmarked`, `typeText`, `defaultText` — the parts of a term, as written.
* `FlatSchema.IsTerm` — the terms that are compiled.
* `FlatSchema.IsPlaceholder`, `FlatSchema.Declares` — the default that a text declares.
* `FlatSchema.ScalarOf` — the node of a term that is no reference.

## Main results

* `FlatSchema.rootReference_eq_some_iff` — the entry that the root term refers to.
* `FlatSchema.declares_parseDefault` — what is read of a default resolves as its text does.
* `flat_view_agrees` — **the two readings of a flat schema agree.**
-/

namespace TerseSchema

/-! ### The parts of a term -/

/-- A term without its mark. -/
def unmarked (text : List Char) : List Char :=
  if text.head? = some '?' then text.tail else text

/-- The type of a scalar, as written: what stands behind the mark, up to the first colon. -/
def typeText (text : List Char) : List Char := (unmarked text).takeWhile (· ≠ ':')

/-- The default of a scalar, as written: what stands behind the first colon, up to the
second. -/
def defaultText (text : List Char) : List Char :=
  ((text.dropWhile (· ≠ ':')).drop 1).takeWhile (· ≠ ':')

/-- The mark of a term is no part of its default. -/
theorem defaultText_unmarked (text : List Char) :
    defaultText (unmarked text) = defaultText text := by
  unfold unmarked
  split
  · next hhead =>
    obtain ⟨rest, rfl⟩ := List.head?_eq_some_iff.mp hhead
    rw [List.tail_cons, defaultText, defaultText, List.dropWhile_cons_of_pos (by decide)]
  · rfl

/-- A term is a mark and what is said behind it. -/
theorem Term.parse_eq (literals : List (List Char)) (text : List Char) :
    Term.parse literals text =
      ⟨decide (text.head? = some '?'), Term.parseContent literals (unmarked text)⟩ := by
  unfold Term.parse
  split
  · rfl
  · next hmark =>
    have hhead : text.head? ≠ some '?' := fun h => (List.head?_eq_some_iff.mp h).elim hmark
    rw [unmarked, if_neg hhead, decide_eq_false hhead]

namespace FlatSchema

variable {s : FlatSchema}

/-- **The root reference is the entry that the root term refers to.** -/
theorem rootReference_eq_some_iff {index : Nat} :
    s.rootReference = some index ↔ s.root.content = .reference index := by
  have hparse : s.rootReference = Reference.parse? (unmarked s.flat) := by
    unfold rootReference
    split
    · next hflat =>
      rw [hflat]
      rfl
    · next hmark =>
      rw [unmarked, if_neg]
      exact fun h => (List.head?_eq_some_iff.mp h).elim hmark
  rw [hparse, root, Term.parse_eq, Term.parseContent_eq_reference_iff]

/-! ### Defaults -/

/-- A text is a placeholder: `$` and digits, which denote the number of a literal. -/
def IsPlaceholder (s : FlatSchema) (text : List Char) : Prop :=
  ∃ digits, text = '$' :: digits ∧ IsNumber digits ∧
    Nat.ofDigitChars 10 digits 0 < pow2 64 ∧ Nat.ofDigitChars 10 digits 0 < s.literals.length

/-- A text declares no default if it is empty.  Otherwise the text of the default is what
the written one resolves to, and it is a literal exactly if that is a placeholder. -/
def Declares (s : FlatSchema) (text : List Char) : Option Default → Prop
  | none => text = []
  | some d => text ≠ [] ∧ d.text.toList = s.resolveLiteral text ∧
      ((∃ literal, d = .literal literal) ↔ s.IsPlaceholder text)

theorem isPlaceholder_cons_iff {digits : List Char} :
    s.IsPlaceholder ('$' :: digits) ↔
      ∃ literal, (Reference.parse? digits).bind (s.literals[·]?) = some literal := by
  constructor
  · rintro ⟨_, htext, hdigits, hbits, hlt⟩
    obtain rfl := (List.cons.inj htext).2
    have hparse := Reference.parse?_eq_some_iff.mpr ⟨hdigits, rfl, hbits⟩
    exact ⟨_, Option.bind_eq_some_iff.mpr ⟨_, hparse, List.getElem?_eq_getElem hlt⟩⟩
  · rintro ⟨literal, h⟩
    obtain ⟨index, hparse, hliteral⟩ := Option.bind_eq_some_iff.mp h
    obtain ⟨hdigits, rfl, hbits⟩ := Reference.parse?_eq_some_iff.mp hparse
    exact ⟨digits, rfl, hdigits, hbits, (List.getElem?_eq_some_iff.mp hliteral).1⟩

/-- **What is read of a default resolves as its text does**, and is a literal exactly if the
text is a placeholder. -/
theorem declares_parseDefault (s : FlatSchema) (text : List Char) :
    s.Declares text (Term.parseDefault s.literals text) := by
  unfold Term.parseDefault
  split
  · rfl
  · next digits =>
    cases h : (Reference.parse? digits).bind (s.literals[·]?) with
    | some literal =>
      refine ⟨List.cons_ne_nil _ _, ?_, iff_of_true ⟨_, rfl⟩ (isPlaceholder_cons_iff.mpr ⟨_, h⟩)⟩
      rw [Default.text, String.toList_ofList, resolveLiteral, h, Option.getD_some]
    | none =>
      refine ⟨List.cons_ne_nil _ _, ?_, iff_of_false nofun fun hplaceholder => ?_⟩
      · rw [Default.text, String.toList_ofList, resolveLiteral, h, Option.getD_none]
      · obtain ⟨literal, hliteral⟩ := isPlaceholder_cons_iff.mp hplaceholder
        cases h.symm.trans hliteral
  · next hnil hdollar =>
    refine ⟨hnil, ?_, iff_of_false nofun ?_⟩
    · rw [Default.text, String.toList_ofList, resolveLiteral]
      exact hdollar
    · rintro ⟨digits, htext, -⟩
      exact hdollar digits htext

/-! ### Scalars -/

/-- The node of a term that is no reference: its mark, its type, and the default that it
declares. -/
def ScalarOf (s : FlatSchema) (text : List Char) : Node → Prop
  | .scalar optional type declared => (optional = true ↔ text.head? = some '?') ∧
      type.toList = typeText text ∧ s.Declares (defaultText text) declared
  | _ => False

/-- What is read of a term that is no reference is its scalar. -/
theorem scalarOf_of_parse {text : List Char} {optional : Bool} {type : String}
    {declared : Option Default}
    (h : Term.parse s.literals text = ⟨optional, .scalar type declared⟩) :
    (∀ index, ¬ RefersTo text index) ∧ s.ScalarOf text (.scalar optional type declared) := by
  have hcontent := congrArg Term.content h
  constructor
  · intro index hrefers
    cases hcontent.symm.trans (Term.content_parse_eq_reference_iff.mpr hrefers)
  · rw [Term.parse_eq] at h hcontent
    have hoptional : decide (text.head? = some '?') = optional := congrArg Term.optional h
    simp only [Term.parseContent, List.span_eq_takeWhile_dropWhile] at hcontent
    split at hcontent
    · cases hcontent
    · obtain ⟨rfl, rfl⟩ := Content.scalar.inj hcontent
      refine ⟨?_, String.toList_ofList, ?_⟩
      · rw [← hoptional, decide_eq_true_iff]
      · rw [← defaultText_unmarked]
        exact s.declares_parseDefault _

/-! ### The terms that are compiled -/

/-- The terms that are compiled: that of the root, and those of the entries that it leads
to. -/
inductive IsTerm (s : FlatSchema) : List Char → Prop
  | root : IsTerm s s.flat
  | part {index : Nat} {body text : List Char} : s.Reached index → s.lookups[index]? = some body →
      text ∈ termTexts body → IsTerm s text

/-- The terms of an entry that is reached are compiled. -/
theorem Reached.exists_isTerm {index : Nat} (h : s.Reached index) {t : Term}
    (ht : t ∈ (s.group index).terms) : ∃ text, s.IsTerm text ∧ Term.parse s.literals text = t ∧
      ∀ lower, RefersTo text lower → s.Leads index lower := by
  have hbody := getElem?_lookups h.lt
  rw [group, Group.terms_parse] at ht
  obtain ⟨text, htext, rfl⟩ := List.mem_map.mp ht
  exact ⟨text, .part h hbody htext, rfl, fun lower hrefers => ⟨_, hbody, text, htext, hrefers⟩⟩

/-- A scalar that is met is that of a term that is compiled. -/
def FromTerm (s : FlatSchema) (optional : Bool) (type : String) (declared : Option Default) :
    Prop :=
  ∃ text, s.IsTerm text ∧ Term.parse s.literals text = ⟨optional, .scalar type declared⟩

theorem meetsScalars_fromTerm (s : FlatSchema) (bound : Nat) : ∀ text, s.IsTerm text →
    (∀ index, RefersTo text index → index < bound → s.Reached index) →
    MeetsScalars s.FromTerm s bound (Term.parse s.literals text) := by
  -- every entry followed is the bound of the next
  induction bound using Nat.strongRecOn with
  | _ bound ih =>
    intro text htext hreached
    rcases hparse : Term.parse s.literals text with ⟨optional, index | ⟨type, declared⟩⟩
    · rw [meetsScalars_reference]
      intro hlt t ht
      have hrefers : RefersTo text index :=
        Term.content_parse_eq_reference_iff.mp (congrArg Term.content hparse)
      have hindex := hreached index hrefers hlt
      obtain ⟨text', htext', rfl, hleads⟩ := hindex.exists_isTerm ht
      refine ih index hlt text' htext' fun lower hlower hdown => ?_
      exact .step hindex (hleads lower hlower) (Nat.lt_trans hdown hindex.lt)
    · rw [meetsScalars_scalar]
      exact ⟨text, htext, hparse⟩

end FlatSchema

/-! ### The nodes of the terms -/

namespace Building.Faithful

variable {s : FlatSchema} {b : Building} {root : Nat}

/-- Once the root has its node, every entry that is reached is remembered. -/
theorem exists_lookup (hb : b.Faithful s) (hroot : b.Stands s.root root) {index : Nat}
    (h : s.Reached index) : ∃ optional id, b.placed.lookup (index, optional) = some id := by
  -- a term that refers to an entry stands where it is remembered
  have hstands : ∀ {t : Term} {id lower : Nat}, b.Stands t id → t.content = .reference lower →
      ∃ optional id, b.placed.lookup (lower, optional) = some id := by
    intro t id lower ht hcontent
    rw [Stands, hcontent] at ht
    exact ⟨t.optional, id, ht⟩
  induction h with
  | root hrefers _ => exact hstands hroot (Term.content_parse_eq_reference_iff.mpr hrefers)
  | @step index lower hreached hleads _ ih =>
    obtain ⟨optional, id, hl⟩ := ih
    obtain ⟨node, -, hrepresents⟩ := hb.represents index optional id hl
    obtain ⟨t, ht, hcontent⟩ := (FlatSchema.leads_iff hreached.lt).mp hleads
    obtain ⟨id', hid⟩ := hrepresents.exists_rel ht
    exact hstands hid hcontent

/-- Once the root has its node, every term that is compiled has one. -/
theorem exists_stands (hb : b.Faithful s) (hroot : b.Stands s.root root) {text : List Char}
    (h : s.IsTerm text) : ∃ id, b.Stands (Term.parse s.literals text) id := by
  cases h with
  | root => exact ⟨root, hroot⟩
  | @part index body text hreached hbody htext =>
    obtain ⟨optional, id, hl⟩ := hb.exists_lookup hroot hreached
    obtain ⟨node, -, hrepresents⟩ := hb.represents index optional id hl
    refine hrepresents.exists_rel ?_
    rw [FlatSchema.group, Group.terms_parse, List.getD_eq_getElem?_getD, hbody, Option.getD_some]
    exact List.mem_map_of_mem htext

end Building.Faithful

/-! ### The two readings -/

/-- **The two readings of a flat schema agree**, whatever its texts are.  The root refers to
an entry exactly if the node of the root is that of a group, and then it comes from that
entry and from no other; and it is optional exactly if the text of the root is led by `?`.
Every term that is no reference has a scalar, and every scalar is that of such a term: the
text of its default is what the written one resolves to, and it is a literal exactly if `$`
and the number of a literal are written. -/
theorem flat_view_agrees {s : FlatSchema} {a : Arena} (h : compile s = .ok a) :
    ∃ b : Building,
      (placeTerm (placeEntry s s.lookups.length) s.root).run {} = .ok (a.root, b) ∧
      b.nodes = a.nodes ∧ b.Faithful s ∧
      (∃ node, a.nodes[a.root]? = some node ∧
        (s.rootReference.isSome ↔ node.isGroup = true) ∧
        (node.optional = true ↔ s.flat.head? = some '?')) ∧
      (∀ index, s.rootReference = some index ↔ b.BuiltFrom index a.root) ∧
      (∀ text, s.IsTerm text → (∀ index, ¬ RefersTo text index) →
        ∃ node ∈ a.nodes, s.ScalarOf text node) ∧
      ∀ node ∈ a.nodes, node.isGroup = false →
        ∃ text, s.IsTerm text ∧ (∀ index, ¬ RefersTo text index) ∧ s.ScalarOf text node := by
  obtain ⟨b, hrun, hnodes, hb, hroot⟩ := exists_faithful h
  refine ⟨b, hrun, hnodes, hb, ?_, fun index => ?_, fun text htext hplain => ?_,
    fun node hmem hscalar => ?_⟩
  · obtain ⟨node, hnode, hoptional, hgroup⟩ := hroot.exists_node hb
    refine ⟨node, hnodes ▸ hnode, ?_, ?_⟩
    · rw [hgroup, Option.isSome_iff_exists]
      exact exists_congr fun index => FlatSchema.rootReference_eq_some_iff
    · rw [hoptional, FlatSchema.root, Term.parse_eq, decide_eq_true_iff]
  · rw [FlatSchema.rootReference_eq_some_iff, hroot.builtFrom_iff hb]
  · obtain ⟨id, hid⟩ := hb.exists_stands hroot htext
    rcases hparse : Term.parse s.literals text with ⟨optional, index | ⟨type, declared⟩⟩
    · have hcontent := congrArg Term.content hparse
      exact absurd (Term.content_parse_eq_reference_iff.mp hcontent) (hplain index)
    · rw [hparse] at hid
      exact ⟨_, hnodes ▸ List.mem_of_getElem? hid, (FlatSchema.scalarOf_of_parse hparse).2⟩
  · have hmeets : MeetsScalars s.FromTerm s s.lookups.length s.root :=
      s.meetsScalars_fromTerm s.lookups.length s.flat .root fun index hrefers hlt =>
        .root hrefers hlt
    obtain ⟨id, hid⟩ := List.mem_iff_getElem?.mp hmem
    cases fits_of_compile h hmeets hid with
    | scalar hfrom =>
      obtain ⟨text, htext, hparse⟩ := hfrom
      obtain ⟨hplain, hscalarOf⟩ := FlatSchema.scalarOf_of_parse hparse
      exact ⟨text, htext, hplain, hscalarOf⟩
    | array _ _ => cases hscalar
    | object _ _ _ _ => cases hscalar

/-- A table written by hand, with zeros before its numbers, a number past the end of the
literals, one of 65 bits, and a placeholder where a type is due. -/
def strayTable : FlatSchema :=
  ⟨"?01".toList, ["[s:$00,s:$7:x,$0:$0]".toList,
    "[i:$18446744073709551616,?000,18446744073709551616]".toList], ["x".toList]⟩

theorem flat_view_agrees_strayTable : ∃ (a : Arena) (b : Building), compile strayTable = .ok a ∧
    b.nodes = a.nodes ∧ strayTable.rootReference = some 1 ∧ b.BuiltFrom 1 a.root ∧
    ∃ node ∈ a.nodes, strayTable.ScalarOf "s:$00".toList node := by
  have hcompile : compile strayTable = .ok ⟨[
      .scalar false "i" (some (.bare "$18446744073709551616")),
      .scalar false "s" (some (.literal "x")), .scalar false "s" (some (.bare "$7")),
      .scalar false "$0" (some (.literal "x")), .array true [1, 2, 3],
      .scalar false "18446744073709551616" none, .array true [0, 4, 5]], 6⟩ :=
    compile_of_groups [.array [⟨false, .scalar "s" (some (.literal "x"))⟩,
        ⟨false, .scalar "s" (some (.bare "$7"))⟩, ⟨false, .scalar "$0" (some (.literal "x"))⟩],
      .array [⟨false, .scalar "i" (some (.bare "$18446744073709551616"))⟩,
        ⟨true, .reference 0⟩, ⟨false, .scalar "18446744073709551616" none⟩]]
      ⟨true, .reference 1⟩ (by decide) (by decide) (by decide)
  obtain ⟨b, -, hnodes, -, -, hroot, hscalar, -⟩ := flat_view_agrees hcompile
  have href : strayTable.rootReference = some 1 := by decide
  have hreached : strayTable.Reached 1 :=
    .root ⟨"01".toList, .inr rfl, by decide, by decide, by decide⟩ (by decide)
  have hleads : strayTable.Leads 1 0 :=
    ⟨_, rfl, "?000".toList, by decide, "000".toList, .inr rfl, by decide, by decide, by decide⟩
  have hterm : strayTable.IsTerm "s:$00".toList :=
    .part (.step hreached hleads (by decide)) rfl (by decide)
  have hplain : ∀ index, ¬ RefersTo "s:$00".toList index := by
    intro index hrefers
    cases (@Term.content_parse_eq_reference_iff [] _ index).mpr hrefers
  exact ⟨_, b, hcompile, hnodes, href, (hroot 1).mp href, hscalar _ hterm hplain⟩

end TerseSchema
