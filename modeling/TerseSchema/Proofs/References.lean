import TerseSchema.Proofs.Sharing

/-!
# The first reference out of bounds

Following every reference anew, from left to right and an entry before what
stands behind it, meets a list of references, each with the number of entries it
may see.  Elaborating succeeds exactly if all of them are in bounds, and fails at
the first one that is not; compiling does the same, although it follows each
entry only once for each optional mark.

## Main definitions

* `Visit` — a reference met, and the number of entries it may see.
* `visits`, `FlatSchema.visits` — the references met below a term, and below the
  root of a flat schema.

## Main results

* `elaborate_meets` — elaborating answers by the first visit out of bounds.
* `compile_agrees_with_elaborate` — **so does compiling, and with the same tree.**
-/

namespace TerseSchema

/-- A reference that is met, and the number of entries it may see. -/
structure Visit where
  /-- The entry it refers to. -/
  index : Nat
  /-- The number of entries it may see. -/
  bound : Nat
  deriving DecidableEq

/-- Whether a reference is out of bounds. -/
def Visit.dangles (v : Visit) : Bool := v.bound ≤ v.index

/-- The references met below a term that may see the first `bound` entries: its
own, and then those of the entry it refers to.  One out of bounds leads no
further. -/
def visits (s : FlatSchema) (bound : Nat) (t : Term) : List Visit :=
  match t.content with
  | .scalar _ _ => []
  | .reference index =>
    ⟨index, bound⟩ ::
      if index < bound then (s.group index).terms.flatMap (visits s index) else []
termination_by bound

/-- The references met below the root. -/
def FlatSchema.visits (s : FlatSchema) : List Visit :=
  TerseSchema.visits s s.lookups.length s.root

/-- An answer fits the references met on the way to it: it is an error exactly if
one of them is out of bounds, and then names the first such. -/
def Meets {α : Type} (met : List Visit) (answer : Except SchemaError α) : Prop :=
  match answer with
  | .ok _ => ∀ v ∈ met, v.index < v.bound
  | .error e => ∃ v, met.find? Visit.dangles = some v ∧
      e = .danglingReference v.index v.bound

namespace Meets

variable {α β ι : Type}

theorem find?_eq_none {met : List Visit} (h : ∀ v ∈ met, v.index < v.bound) :
    met.find? Visit.dangles = none :=
  List.find?_eq_none.mpr fun v hv => by
    simpa [Visit.dangles] using h v hv

/-- What is met first decides; what follows is met only behind a success. -/
theorem bind {met more : List Visit} {answer : Except SchemaError α}
    {next : α → Except SchemaError β} (h : Meets met answer) (hnext : ∀ x, Meets more (next x)) :
    Meets (met ++ more) (answer >>= next) := by
  cases answer with
  | error e =>
    obtain ⟨v, hv, he⟩ := h
    exact ⟨v, by rw [List.find?_append, hv, Option.some_or], he⟩
  | ok x =>
    -- behind a success nothing dangles, so that the next step decides
    have hmet : ∀ v ∈ met, v.index < v.bound := h
    have hx : Meets more (next x) := hnext x
    show Meets (met ++ more) (next x)
    cases hn : next x with
    | error e =>
      rw [hn] at hx
      obtain ⟨v, hv, he⟩ := hx
      exact ⟨v, by rw [List.find?_append, find?_eq_none hmet, Option.none_or, hv], he⟩
    | ok y =>
      rw [hn] at hx
      intro v hv
      rcases List.mem_append.mp hv with hv | hv
      · exact hmet v hv
      · exact hx v hv

theorem pure (x : α) : Meets [] (.ok x : Except SchemaError α) := fun _ hv => absurd hv (by simp)

theorem mapM {f : ι → Except SchemaError α} {met : ι → List Visit} {items : List ι}
    (h : ∀ i ∈ items, Meets (met i) (f i)) : Meets (items.flatMap met) (items.mapM f) := by
  induction items with
  | nil => exact pure []
  | cons i items ih =>
    rw [List.mapM_cons, List.flatMap_cons]
    refine (h i List.mem_cons_self).bind fun x => ?_
    rw [← List.append_nil (items.flatMap met)]
    exact (ih fun j hj => h j (List.mem_cons_of_mem _ hj)).bind fun xs => pure (x :: xs)

end Meets

/-- Elaborating a group meets what its terms meet, in the order in which they are
written. -/
theorem groupTree_meets {tree : Term → Except SchemaError Tree} {met : Term → List Visit}
    (h : ∀ t, Meets (met t) (tree t)) (optional : Bool) (g : Group) :
    Meets (g.terms.flatMap met) (groupTree tree optional g) := by
  cases g with
  | array parts =>
    rw [← List.append_nil (List.flatMap _ _)]
    exact (Meets.mapM fun t _ => h t).bind fun ts => Meets.pure _
  | object entries =>
    have hentry : ∀ e ∈ entries, Meets (met e.2)
        (do return (e.1, ← tree e.2) : Except SchemaError (String × Tree)) := fun e _ => by
      rw [← List.append_nil (met e.2)]
      exact (h e.2).bind fun t => Meets.pure _
    have hall := Meets.mapM hentry
    rw [← List.append_nil (List.flatMap _ _), Group.terms, List.flatMap_map]
    exact hall.bind fun es => Meets.pure _

/-- Elaborating a term meets the references below it. -/
theorem termTree_meets (s : FlatSchema) (bound : Nat) : ∀ t : Term,
    Meets (visits s bound t) (termTree (entryTree s bound) t) := by
  induction bound using Nat.strongRecOn with
  | _ bound ih =>
    intro t
    obtain ⟨optional, content⟩ := t
    cases content with
    | scalar type declared =>
      rw [visits]
      exact Meets.pure _
    | reference index =>
      rw [visits]
      show Meets _ (entryTree s bound index optional)
      rw [entryTree_eq]
      by_cases hlt : index < bound
      · have hgroup := groupTree_meets (ih index hlt) optional (s.group index)
        have hhead : Meets [⟨index, bound⟩] (.ok () : Except SchemaError Unit) := by
          intro v hv
          rw [List.mem_singleton.mp hv]
          exact hlt
        simp only [if_pos hlt]
        exact hhead.bind fun _ => hgroup
      · simp only [if_neg hlt]
        refine ⟨⟨index, bound⟩, ?_, rfl⟩
        exact List.find?_cons_of_pos (by simpa [Visit.dangles] using hlt)

/-- **Elaborating answers by the first visit out of bounds.** -/
theorem elaborate_meets (s : FlatSchema) : Meets s.visits s.elaborate :=
  termTree_meets s s.lookups.length s.root

/-- **Compiling agrees with following every reference anew.**  If elaborating
succeeds, all references met are in bounds and the arena seen from its root is
the tree.  If it fails, compiling fails with the same error, which carries the
index and the bound of the first reference out of bounds. -/
theorem compile_agrees_with_elaborate (s : FlatSchema) :
    match s.elaborate with
    | .ok t => (∃ a, compile s = .ok a ∧ a.tree = t) ∧ ∀ v ∈ s.visits, v.index < v.bound
    | .error e => compile s = .error e ∧ ∃ v, s.visits.find? Visit.dangles = some v ∧
        e = .danglingReference v.index v.bound := by
  have htree := compile_map_tree s
  have hmeets := elaborate_meets s
  cases he : s.elaborate with
  | ok t =>
    rw [he] at htree hmeets
    cases hc : compile s with
    | error e =>
      rw [hc] at htree
      cases htree
    | ok a =>
      rw [hc] at htree
      exact ⟨⟨a, rfl, Except.ok.inj htree⟩, hmeets⟩
  | error e =>
    rw [he] at htree hmeets
    cases hc : compile s with
    | error e' =>
      rw [hc] at htree
      exact ⟨congrArg Except.error (Except.error.inj htree), hmeets⟩
    | ok a =>
      rw [hc] at htree
      cases htree

/-- An entry sees the entries recorded before it only, and never itself. -/
example : compile ⟨"1".toList, ["[i]".toList, "\x7ba:0,b:?0,c:1\x7d".toList], []⟩ =
    .error (.danglingReference 1 1) := by
  decide +kernel

end TerseSchema
