import TerseSchema.Proofs.Pieces

/-!
# Texts of a single term

The root of a flat schema is what is left of the whole text.  Where a group is written
for itself, with nothing but an optional mark before it, it is the number of the last
entry, and this entry is the group.  Whatever else stands beside a group runs into its
number.

## Main definitions

* `Piece.IsGroup` — a piece is a group.

## Main results

* `FlatSchema.Nests.last_entry` — the last group that is written for itself is the last
  entry.
* `flat_is_one_term` — **when the root of a flat schema is the number of its last entry.**
-/

namespace TerseSchema

namespace Piece

/-- Whether a piece is a group. -/
def IsGroup : Piece → Prop
  | .group _ _ _ => True
  | _ => False

theorem exists_of_isGroup {p : Piece} (h : p.IsGroup) :
    ∃ number kind body, p = .group number kind body := by
  cases p with
  | group number kind body => exact ⟨number, kind, body, rfl⟩
  | mark => cases h
  | literal => cases h

theorem not_isGroup_optionalPieces (optional : Bool) : ∀ p ∈ optionalPieces optional,
    ¬ p.IsGroup := by
  cases optional with
  | false => exact List.forall_mem_nil _
  | true => exact List.forall_mem_singleton.mpr id

/-- Without groups there are no entries. -/
theorem entriesOf_eq_nil {ps : List Piece} (h : ∀ p ∈ ps, ¬ p.IsGroup) : entriesOf ps = [] := by
  induction ps with
  | nil => rfl
  | cons p ps ih =>
    obtain ⟨hp, hps⟩ := List.forall_mem_cons.mp h
    rw [entriesOf, ih hps, List.append_nil]
    cases p with
    | mark => rfl
    | literal => rfl
    | group => exact absurd trivial hp

/-- Pieces with a group have a last one. -/
theorem exists_last_group {ps : List Piece} (h : ∃ p ∈ ps, p.IsGroup) :
    ∃ before number kind body after, ps = before ++ .group number kind body :: after ∧
      ∀ p ∈ after, ¬ p.IsGroup := by
  induction ps using List.reverseRecOn with
  | nil =>
    obtain ⟨p, hp, -⟩ := h
    cases hp
  | append_singleton ps p ih =>
    by_cases hp : p.IsGroup
    · obtain ⟨number, kind, body, rfl⟩ := exists_of_isGroup hp
      exact ⟨ps, number, kind, body, [], rfl, List.forall_mem_nil _⟩
    · have hps : ∃ q ∈ ps, q.IsGroup := by
        obtain ⟨q, hq, hgroup⟩ := h
        rcases List.mem_append.mp hq with hq | hq
        · exact ⟨q, hq, hgroup⟩
        · exact absurd (List.mem_singleton.mp hq ▸ hgroup) hp
      obtain ⟨before, number, kind, body, after, rfl, hafter⟩ := ih hps
      refine ⟨before, number, kind, body, after ++ [p], by simp, ?_⟩
      exact List.forall_mem_append.mpr ⟨hafter, List.forall_mem_singleton.mpr hp⟩

/-- The last group is recorded last. -/
theorem getLast?_entriesOf {before after : List Piece} {number : Nat} {kind : Bracket}
    {body : List Piece} (h : ∀ p ∈ after, ¬ p.IsGroup) :
    (entriesOf (before ++ .group number kind body :: after)).getLast? =
      some (recorded kind body, number) := by
  have hafter := entriesOf_eq_nil h
  rw [entriesOf_eq_flatMap] at hafter ⊢
  rw [List.flatMap_append, List.flatMap_cons, hafter, entries, List.append_nil,
    ← List.append_assoc, List.getLast?_concat]

/-- One character that is no digit is left of one mark only. -/
theorem eq_mark_of_flatText {ps : List Piece} {c : Char} (h : flatText ps = [c])
    (hc : c.isDigit = false) (hne : c ≠ '$') : ∃ plain, ps = [.mark c plain] := by
  cases ps with
  | nil => cases h
  | cons p ps =>
    have hmem : c ∈ p.text := by
      obtain ⟨d, text, hd⟩ := List.exists_cons_of_ne_nil p.text_ne_nil
      rw [flatText_cons, hd, List.cons_append] at h
      rw [hd, (List.cons.inj h).1]
      exact List.mem_cons_self
    obtain ⟨plain, rfl⟩ := eq_mark_of_mem_text hmem hc hne
    have hrest : flatText ps = [] := (List.cons.inj h).2
    rw [flatText_eq_nil_iff.mp hrest]
    exact ⟨plain, rfl⟩

/-- **What stands beside a group runs into its number**, unless it is an optional mark
before it. -/
theorem flatText_eq_reference_iff {before after : List Piece} {number : Nat} (optional : Bool) :
    flatText before ++ (Reference.digits number ++ flatText after) =
        optionalMark optional ++ Reference.digits number ↔
      before = optionalPieces optional ∧ after = [] := by
  constructor
  · intro h
    have hlength := congrArg List.length h
    simp only [List.length_append] at hlength
    cases optional with
    | false =>
      have hmark : (optionalMark false).length = 0 := rfl
      have hbefore : flatText before = [] := List.length_eq_zero_iff.mp (by omega)
      have hafter : flatText after = [] := List.length_eq_zero_iff.mp (by omega)
      exact ⟨flatText_eq_nil_iff.mp hbefore, flatText_eq_nil_iff.mp hafter⟩
    | true =>
      have hmark : (optionalMark true).length = 1 := rfl
      obtain ⟨d, ds, hd⟩ : ∃ d ds, Reference.digits number = d :: ds :=
        List.exists_cons_of_ne_nil Nat.toDigits_ne_nil
      rcases Nat.eq_zero_or_pos (flatText before).length with hzero | hpos
      · -- a number does not begin with the mark
        rw [List.length_eq_zero_iff.mp hzero, List.nil_append, hd] at h
        have hmem : '?' ∈ Reference.digits number := by
          rw [hd, (List.cons.inj h).1]
          exact List.mem_cons_self
        exact absurd hmem (Reference.notMem_digits (by decide))
      · have hafter : flatText after = [] := List.length_eq_zero_iff.mp (by omega)
        have hone : (flatText before).length = (optionalMark true).length := by omega
        have hbefore : flatText before = ['?'] := (List.append_inj h hone).1
        obtain ⟨plain, rfl⟩ := eq_mark_of_flatText hbefore (by decide) (by decide)
        exact ⟨rfl, flatText_eq_nil_iff.mp hafter⟩
  · rintro ⟨rfl, rfl⟩
    rw [flatText_optionalPieces, flatText_nil, List.append_nil]

end Piece

open Piece

/-- The last group among the pieces is the last entry. -/
theorem FlatSchema.Nests.last_entry {text : String} {s : FlatSchema} {before after : List Piece}
    {number : Nat} {kind : Bracket} {body : List Piece}
    (h : s.Nests text (before ++ .group number kind body :: after))
    (hafter : ∀ p ∈ after, ¬ p.IsGroup) : s.lookups ≠ [] ∧ number = s.lookups.length - 1 ∧
      s.lookups.getLast? = some (recorded kind body) := by
  have hlast : s.lookups.zipIdx.getLast? = some (recorded kind body, number) := by
    rw [← h.entries, getLast?_entriesOf hafter]
  rcases List.eq_nil_or_concat s.lookups with hnil | ⟨inner, last, hconcat⟩
  · rw [hnil] at hlast
    cases hlast
  · rw [List.concat_eq_append] at hconcat
    rw [hconcat, List.zipIdx_append, List.zipIdx_singleton, List.getLast?_concat] at hlast
    obtain ⟨rfl, rfl⟩ := Prod.mk.inj (Option.some.inj hlast)
    simp [hconcat]

/-- **When the root of a flat schema is the number of its last entry.**  The root is what
is left of the pieces of the text.  Where there is no group among them, nothing is
recorded.  Otherwise something is, and the root is the number of the last entry, with an
optional mark or without, exactly if the text is this one group behind the mark; the group
is then the entry. -/
theorem flat_is_one_term {text : String} {s : FlatSchema} (h : flatten text = .ok s) :
    (∃ ps, s.Nests text ps) ∧ ∀ ps, s.Nests text ps →
      ((∀ p ∈ ps, ¬ p.IsGroup) → s.lookups = []) ∧
      ((∃ p ∈ ps, p.IsGroup) → s.lookups ≠ [] ∧ ∀ optional,
        s.flat = optionalMark optional ++ Reference.digits (s.lookups.length - 1) ↔
          ∃ kind body, ps = optionalPieces optional ++ [.group (s.lookups.length - 1) kind body] ∧
            s.lookups.getLast? = some (recorded kind body)) := by
  refine ⟨exists_nests h, fun ps hnests => ⟨fun hnone => ?_, fun hsome => ?_⟩⟩
  · have hempty := hnests.entries
    rw [entriesOf_eq_nil hnone] at hempty
    exact List.zipIdx_eq_nil_iff.mp hempty.symm
  · obtain ⟨before, number, kind, body, after, rfl, hafter⟩ := exists_last_group hsome
    obtain ⟨hne, hnumber, hlast⟩ := hnests.last_entry hafter
    refine ⟨hne, fun optional => ?_⟩
    rw [hnests.flat, flatText_append, flatText_cons, Piece.text, ← hnumber,
      flatText_eq_reference_iff]
    constructor
    · rintro ⟨rfl, rfl⟩
      exact ⟨kind, body, rfl, hlast⟩
    · rintro ⟨kind', body', he, -⟩
      rcases append_cons_cases he with ⟨hbefore, -, hnil⟩ | ⟨mid, hmark, -⟩ | ⟨mid, -, hnil⟩
      · exact ⟨hbefore, hnil⟩
      · -- a mark is no group
        have hmem : .group number kind body ∈ optionalPieces optional := by
          rw [hmark]
          exact List.mem_append_right _ List.mem_cons_self
        exact absurd trivial (not_isGroup_optionalPieces optional _ hmem)
      · exact absurd hnil.symm (by simp)

/-- An optional array of an object is one term. -/
theorem flat_is_one_term_optional : ∃ s ps, flatten " ? [\x7ba:s\x7d]" = .ok s ∧
    s.Nests " ? [\x7ba:s\x7d]" ps ∧ s.flat = "?1".toList ∧
    ∃ kind body, ps = optionalPieces true ++ [.group 1 kind body] ∧
      recorded kind body = "[0]".toList := by
  let s : FlatSchema := ⟨"?1".toList, ["\x7ba:s\x7d".toList, "[0]".toList], []⟩
  have hflatten : flatten " ? [\x7ba:s\x7d]" = .ok s := by decide +kernel
  obtain ⟨⟨ps, hnests⟩, hterm⟩ := flat_is_one_term hflatten
  obtain ⟨hnone, hsome⟩ := hterm ps hnests
  have hgroup : ∃ p ∈ ps, p.IsGroup := by
    by_contra hno
    have hempty : s.lookups = [] := hnone fun p hp hgroup => hno ⟨p, hp, hgroup⟩
    cases hempty
  have hflat : s.flat = optionalMark true ++ Reference.digits (s.lookups.length - 1) := by
    decide +kernel
  obtain ⟨kind, body, hps, hlast⟩ := ((hsome hgroup).2 true).mp hflat
  exact ⟨s, ps, hflatten, hnests, rfl, kind, body, hps, (Option.some.inj hlast).symm⟩

/-- Of two groups side by side, the numbers run together: the text reads as its second
group, and the first one is left out. -/
theorem flatten_side_by_side : ∃ s, flatten "[i][s]" = .ok s ∧ s.flat = "01".toList ∧
    s.root = ⟨false, .reference 1⟩ ∧ s.lookups = ["[i]".toList, "[s]".toList] ∧
    ¬ ∃ optional, s.flat = optionalMark optional ++ Reference.digits (s.lookups.length - 1) := by
  refine ⟨⟨"01".toList, ["[i]".toList, "[s]".toList], []⟩, ?_, rfl, ?_, rfl, ?_⟩
  · decide +kernel
  · decide +kernel
  · rintro ⟨optional, h⟩
    cases optional <;> exact absurd h (by decide +kernel)

end TerseSchema
