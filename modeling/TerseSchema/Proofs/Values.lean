import TerseSchema.Path
import TerseSchema.Proofs.Table

/-!
# Looking into values

A step leads from a value to an item or a field of it, and the steps of a path
lead one after another.  Two values are the same document when what they hold is
the same along every step, for which the order of fields does not count.

## Main definitions

* `Value.Proper` — no object has two fields of one name, as in every document.
* `Value.child?`, `Value.at?` — what one step leads to, and what a path leads to.

## Main results

* `Value.at?_append` — a path leads where its parts lead in turn.
* `Value.same_self` — a proper value is the same as itself.
* `Value.same_obj_iff` — when two objects are the same.
-/

namespace TerseSchema.Value

/-- No object has two fields of one name. -/
inductive Proper : Value → Prop
  | null : Proper .null
  | bool (b : Bool) : Proper (.bool b)
  | num (n : Number) : Proper (.num n)
  | str (s : String) : Proper (.str s)
  | arr {items : List Value} : (∀ v ∈ items, Proper v) → Proper (.arr items)
  | obj {fields : List (String × Value)} : (Table.names fields).Nodup →
      (∀ f ∈ fields, Proper f.2) → Proper (.obj fields)

theorem Proper.item {items : List Value} (h : Proper (.arr items)) : ∀ v ∈ items, v.Proper := by
  cases h with
  | arr h => exact h

theorem Proper.nodup {fields : List (String × Value)} (h : Proper (.obj fields)) :
    (Table.names fields).Nodup := by
  cases h with
  | obj h _ => exact h

theorem Proper.field {fields : List (String × Value)} (h : Proper (.obj fields)) :
    ∀ f ∈ fields, f.2.Proper := by
  cases h with
  | obj _ h => exact h

/-! ### Steps and paths -/

/-- What one step leads to. -/
def child? (v : Value) : Step → Option Value
  | .item index => v.items?.bind (·[index]?)
  | .field name => v.get? name

/-- What the steps of a path lead to. -/
def at? (v : Value) : List Step → Option Value
  | [] => some v
  | step :: steps => (v.child? step).bind (·.at? steps)

@[simp] theorem at?_cons (v : Value) (step : Step) (steps : List Step) :
    v.at? (step :: steps) = (v.child? step).bind (·.at? steps) := rfl

/-- A path leads where its parts lead in turn. -/
theorem at?_append (v : Value) (steps more : List Step) :
    v.at? (steps ++ more) = (v.at? steps).bind (·.at? more) := by
  induction steps generalizing v with
  | nil => rfl
  | cons step steps ih =>
    rw [List.cons_append, at?_cons, at?_cons, Option.bind_assoc]
    congr 1
    funext w
    exact ih w

/-- The last step leads on from where the others lead. -/
theorem at?_concat (v : Value) (steps : List Step) (step : Step) :
    v.at? (steps ++ [step]) = (v.at? steps).bind (·.child? step) := by
  rw [at?_append]
  congr 1
  funext w
  exact Option.bind_fun_some (w.child? step)

/-! ### Equal documents -/

theorem sameItems_iff {as bs : List Value} :
    sameItems as bs = true ↔ List.Forall₂ (fun a b => a.same b = true) as bs := by
  induction as generalizing bs with
  | nil => cases bs <;> simp [sameItems]
  | cons a as ih => cases bs <;> simp [sameItems, ih]

theorem sameFields_iff {as bs : List (String × Value)} :
    sameFields as bs = true ↔
      ∀ f ∈ as, ∃ b, bs.lookup f.1 = some b ∧ f.2.same b = true := by
  induction as with
  | nil => simp [sameFields]
  | cons f as ih =>
    obtain ⟨key, a⟩ := f
    rw [sameFields, Bool.and_eq_true, ih, List.forall_mem_cons]
    refine and_congr_left' ?_
    cases bs.lookup key <;> simp

/-- Two arrays are the same if their items are, place by place. -/
theorem same_arr_iff {as bs : List Value} :
    (Value.arr as).same (.arr bs) = true ↔
      List.Forall₂ (fun a b => a.same b = true) as bs := by
  rw [same, sameItems_iff]

/-- Two objects are the same if they have as many fields and every field of the
first is found, with the same value, in the second. -/
theorem same_obj_iff {as bs : List (String × Value)} :
    (Value.obj as).same (.obj bs) = true ↔ as.length = bs.length ∧
      ∀ f ∈ as, ∃ b, bs.lookup f.1 = some b ∧ f.2.same b = true := by
  rw [same, Bool.and_eq_true, sameFields_iff, decide_eq_true_iff]

/-- A proper value is the same as itself. -/
theorem same_self {v : Value} (h : v.Proper) : v.same v = true := by
  induction h with
  | null => rfl
  | bool b => simp [same]
  | num n => cases n <;> simp [same, Number.same, Double.same]
  | str s => simp [same]
  | arr _ ih => exact same_arr_iff.mpr (List.forall₂_same.mpr ih)
  | obj hn _ ih =>
    refine same_obj_iff.mpr ⟨rfl, fun f hf => ⟨f.2, ?_, ih f hf⟩⟩
    exact Table.lookup_eq_some_of_mem hn hf

end TerseSchema.Value
