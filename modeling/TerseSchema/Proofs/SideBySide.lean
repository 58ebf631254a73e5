import Mathlib.Data.List.Perm.Basic
import TerseSchema.Proofs.Observation
import TerseSchema.Proofs.Violations

/-!
# Two walks side by side

Two walks are compared by a relation between their positions that one step keeps.  If
related positions lead to related positions one by one, the two walks visit related
positions in the same order; if they do so in some order, the two walks visit related
positions in some order.

## Main definitions

* `Matched` — two lists are related one by one, but for the order.
* `Tree.demand` — the violation of a schema where nothing is.

## Main results

* `Position.forall₂_preorder`, `Position.matched_preorder` — **what one step keeps, the
  whole walk keeps.**
* `Position.answer_validate_eq` — with known types, validation answers with the records of
  the positions in order.
-/

namespace TerseSchema

variable {α β γ : Type} {R : α → β → Prop}

/-! ### Lists that are related one by one -/

theorem rel_getElem? {xs : List α} {ys : List β} (h : List.Forall₂ R xs ys) (i : Nat) :
    Option.Rel R xs[i]? ys[i]? := by
  induction h generalizing i with
  | nil => exact .none
  | cons hxy _ ih =>
    cases i with
    | zero => exact .some hxy
    | succ i => exact ih i

theorem forall₂_zipIdx {xs : List α} {ys : List β} (h : List.Forall₂ R xs ys) (k : Nat) :
    List.Forall₂ (fun x y => R x.1 y.1 ∧ x.2 = y.2) (xs.zipIdx k) (ys.zipIdx k) := by
  induction h generalizing k with
  | nil => exact .nil
  | cons hxy _ ih => exact .cons ⟨hxy, rfl⟩ (ih (k + 1))

/-- Lists that are related one by one have what is the same of related elements. -/
theorem filterMap_eq_of_forall₂ {xs : List α} {ys : List β} {f : α → Option γ} {g : β → Option γ}
    (h : List.Forall₂ R xs ys) (hf : ∀ x y, R x y → f x = g y) :
    xs.filterMap f = ys.filterMap g := by
  induction h with
  | nil => rfl
  | cons hxy _ ih => rw [List.filterMap_cons, List.filterMap_cons, hf _ _ hxy, ih]

/-! ### Lists that match -/

/-- Two lists are related one by one, but for the order. -/
def Matched (R : α → β → Prop) (xs : List α) (ys : List β) : Prop :=
  ∃ zs, List.Forall₂ R xs zs ∧ zs.Perm ys

theorem Matched.of_forall₂ {xs : List α} {ys : List β} (h : List.Forall₂ R xs ys) :
    Matched R xs ys :=
  ⟨ys, h, .refl ys⟩

theorem Matched.perm_right {xs : List α} {ys zs : List β} (h : Matched R xs ys)
    (hperm : ys.Perm zs) : Matched R xs zs := by
  obtain ⟨ws, hws, hys⟩ := h
  exact ⟨ws, hws, hys.trans hperm⟩

theorem Matched.append {xs xs' : List α} {ys ys' : List β} (h : Matched R xs ys)
    (h' : Matched R xs' ys') : Matched R (xs ++ xs') (ys ++ ys') := by
  obtain ⟨zs, hzs, hys⟩ := h
  obtain ⟨zs', hzs', hys'⟩ := h'
  exact ⟨zs ++ zs', List.rel_append hzs hzs', hys.append hys'⟩

theorem Matched.map {δ : Type} {S : γ → δ → Prop} {xs : List α} {ys : List β} {f : α → γ}
    {g : β → δ} (h : Matched R xs ys) (hf : ∀ x y, R x y → S (f x) (g y)) :
    Matched S (xs.map f) (ys.map g) := by
  obtain ⟨zs, hzs, hperm⟩ := h
  refine ⟨zs.map g, ?_, hperm.map g⟩
  rw [List.forall₂_map_left_iff, List.forall₂_map_right_iff]
  exact hzs.imp hf

/-- Lists that match are so by their elements. -/
theorem Matched.and_mem {xs : List α} {ys : List β} (h : Matched R xs ys) :
    Matched (fun x y => x ∈ xs ∧ R x y) xs ys := by
  obtain ⟨zs, hzs, hperm⟩ := h
  exact ⟨zs, (List.forall₂_and_left _ _).mpr ⟨fun _ hx => hx, hzs⟩, hperm⟩

theorem Matched.filter {xs : List α} {ys : List β} {p : α → Bool} {q : β → Bool}
    (h : Matched R xs ys) (hp : ∀ x y, R x y → p x = q y) :
    Matched R (xs.filter p) (ys.filter q) := by
  obtain ⟨zs, hzs, hperm⟩ := h
  have hfilter := List.rel_filter (fun x y hxy => Bool.coe_iff_coe.mpr (hp x y hxy)) hzs
  exact ⟨zs.filter q, hfilter, hperm.filter q⟩

/-- Lists match if they are put together of lists that do, in some order. -/
theorem Matched.flatMap {δ : Type} {S : γ → δ → Prop} {xs : List α} {ys : List β} {f : α → List γ}
    {g : β → List δ} (h : Matched R xs ys) (hf : ∀ x y, R x y → Matched S (f x) (g y)) :
    Matched S (xs.flatMap f) (ys.flatMap g) := by
  obtain ⟨zs, hzs, hperm⟩ := h
  refine .perm_right ?_ (hperm.flatMap_right g)
  clear hperm
  induction hzs with
  | nil => exact .of_forall₂ .nil
  | cons hxy _ ih => exact (hf _ _ hxy).append ih

theorem Matched.filterMap_perm {xs : List α} {ys : List β} {f : α → Option γ} {g : β → Option γ}
    (h : Matched R xs ys) (hf : ∀ x y, R x y → f x = g y) :
    (xs.filterMap f).Perm (ys.filterMap g) := by
  obtain ⟨zs, hzs, hperm⟩ := h
  rw [filterMap_eq_of_forall₂ hzs hf]
  exact hperm.filterMap g

/-! ### One position -/

/-- The violation of a schema where nothing is, unless it is optional. -/
def Tree.demand : Tree → Violation
  | .scalar _ _ _ => .required
  | .array _ _ => .shouldBeArray
  | .object _ _ _ => .shouldBeObject

namespace Position

/-- Where nothing is, a schema that is not optional is violated. -/
theorem violation?_of_absent {registry : Registry} {root : Value} (schema : Tree) {place : Place}
    (hp : place.present = none) : violation? registry root ⟨schema, place⟩ =
      if schema.optional then none else some schema.demand := by
  rw [violation?]
  simp only [hp, true_and]
  cases schema <;> rfl

/-- Where something is, a scalar has it checked, and a group asks for a value of its kind. -/
theorem violation?_of_present {registry : Registry} {root : Value} (schema : Tree) {place : Place}
    {v : Value} (hp : place.present = some v) : violation? registry root ⟨schema, place⟩ =
      match schema with
      | .scalar _ type _ =>
        if registry.check type v ⟨place.path, root, place.parent⟩ = .ok false then
          some .validationFailed
        else none
      | .array _ _ => if v.items?.isSome then none else some .shouldBeArray
      | .object _ _ _ => if v.fields?.isSome then none else some .shouldBeObject := by
  rw [violation?]
  simp only [hp, reduceCtorEq, false_and, if_false]
  cases schema with
  | scalar optional type declared => rfl
  | array optional parts => cases v <;> rfl
  | object optional fields wildcard => cases v <;> rfl

/-! ### Two walks -/

variable {R : Position → Position → Prop}

/-- **If related positions lead to related positions one by one, two walks visit related
positions in the same order.** -/
theorem forall₂_preorder (hstep : ∀ q q', R q q' → List.Forall₂ R q.next q'.next)
    {q q' : Position} (h : R q q') : List.Forall₂ R q.preorder q'.preorder := by
  induction q using Position.induct generalizing q' with
  | h q ih =>
    rw [preorder_eq, preorder_eq]
    refine .cons h (List.rel_flatMap (forall₂_and_mem (hstep q q' h)) ?_)
    -- what follows on two such positions is related by induction
    exact fun a b ⟨ha, _, hab⟩ => ih a (mem_next.mp ha) hab

/-- **If related positions lead to related positions in some order, two walks visit
related positions in some order.** -/
theorem matched_preorder (hstep : ∀ q q', R q q' → Matched R q.next q'.next)
    {q q' : Position} (h : R q q') : Matched R q.preorder q'.preorder := by
  induction q using Position.induct generalizing q' with
  | h q ih =>
    rw [preorder_eq, preorder_eq]
    have hnext := (hstep q q' h).and_mem.flatMap fun a b ⟨ha, hab⟩ => ih a (mem_next.mp ha) hab
    exact (Matched.of_forall₂ (.cons h .nil)).append hnext

/-! ### The records of a walk -/

/-- With known types, validation answers with the records of the positions in order. -/
theorem answer_validate_eq {registry : Registry} {schema : Arena}
    (hknown : registry.ensureKnown schema.types = .ok ()) (v : Value) (pathRoot : String) :
    (validate v schema registry pathRoot).answer =
      .ok ((start schema.tree v pathRoot).preorder.filterMap (record? registry v)) := by
  rw [answer_validate hknown, validated_eq_flatMap, List.filterMap_flatMap,
    List.filterMap_eq_flatMap_toList]
  congr 1
  refine List.flatMap_congr fun q hq => filterMap_findings ?_
  exact allScalars_reaches (allScalars_known hknown) (mem_preorder.mp hq)

end Position

end TerseSchema
