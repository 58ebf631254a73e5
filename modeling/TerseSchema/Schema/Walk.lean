import TerseSchema.Schema.Tree

/-!
# Walking a schema

A walk says what a schema does at a place, given what its parts do there.  The
parts are handed over as functions and not as results, so that only the parts
that a place calls for are ever walked.

## Main definitions

* `Walk σ γ` — what to do at a scalar, an array and an object, for places of type
  `σ` and results of type `γ`.
* `Walk.run` — applies a walk to a schema.
* `nth` — the part of a cyclic pattern that applies to an item.
-/

namespace TerseSchema

/-- What a schema does at a place, given what its parts do. -/
structure Walk (σ γ : Type) where
  /-- At a scalar: its optional mark, its type and its default. -/
  scalar : Bool → String → Option Default → σ → γ
  /-- At an array: its optional mark and its parts. -/
  array : Bool → List (σ → γ) → σ → γ
  /-- At an object: its optional mark, its declared fields and its wildcard. -/
  object : Bool → List (String × (σ → γ)) → Option (σ → γ) → σ → γ

namespace Walk

variable {σ γ : Type}

mutual

/-- Applies a walk to a schema. -/
def run (w : Walk σ γ) (t : Tree) (place : σ) : γ :=
  match t with
  | .scalar optional type declared => w.scalar optional type declared place
  | .array optional parts => w.array optional (w.runParts parts) place
  | .object optional fields wildcard =>
    w.object optional (w.runFields fields) (w.runWildcard wildcard) place

/-- The parts of an array. -/
def runParts (w : Walk σ γ) : List Tree → List (σ → γ)
  | [] => []
  | t :: ts => (fun place => w.run t place) :: w.runParts ts

/-- The declared fields of an object. -/
def runFields (w : Walk σ γ) : List (String × Tree) → List (String × (σ → γ))
  | [] => []
  | (name, t) :: ts => (name, fun place => w.run t place) :: w.runFields ts

/-- The wildcard of an object. -/
def runWildcard (w : Walk σ γ) : Option Tree → Option (σ → γ)
  | none => none
  | some t => some fun place => w.run t place

end

theorem runParts_eq_map (w : Walk σ γ) (ts : List Tree) : w.runParts ts = ts.map w.run := by
  induction ts with
  | nil => rfl
  | cons t ts ih => simp [runParts, ih]

theorem runFields_eq_map (w : Walk σ γ) (ts : List (String × Tree)) :
    w.runFields ts = ts.map fun (name, t) => (name, w.run t) := by
  induction ts with
  | nil => rfl
  | cons f ts ih => simp [runFields, ih]

theorem runWildcard_eq_map (w : Walk σ γ) (t : Option Tree) : w.runWildcard t = t.map w.run := by
  cases t <;> rfl

@[simp] theorem run_scalar (w : Walk σ γ) (optional : Bool) (type : String)
    (declared : Option Default) (place : σ) :
    w.run (.scalar optional type declared) place = w.scalar optional type declared place := by
  rw [run]

@[simp] theorem run_array (w : Walk σ γ) (optional : Bool) (parts : List Tree) (place : σ) :
    w.run (.array optional parts) place = w.array optional (parts.map w.run) place := by
  rw [run, runParts_eq_map]

@[simp] theorem run_object (w : Walk σ γ) (optional : Bool) (fields : List (String × Tree))
    (wildcard : Option Tree) (place : σ) :
    w.run (.object optional fields wildcard) place =
      w.object optional (fields.map fun (name, t) => (name, w.run t)) (wildcard.map w.run)
        place := by
  rw [run, runFields_eq_map, runWildcard_eq_map]

end Walk

/-- The part of a cyclic pattern that applies to item `i`; none if there are no
parts. -/
def nth {α : Type} (parts : List α) (i : Nat) : Option α := parts[i % parts.length]?

end TerseSchema
