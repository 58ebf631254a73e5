/-!
# Insertion-ordered tables

A table is a list of entries, each a name and what the name stands for.  A name
keeps the place where it first arrived; writing it again replaces the entry
there.

## Main definitions

* `Table.insert` — write one entry.
* `Table.merge` — write all entries of a second table over a first one.
* `Table.ofEntries` — the table of a list of entries, later ones winning.
* `Table.names`, `Table.sorted` — the names in order of arrival, and the entries
  in order of their names.

Look-up is `List.lookup`.
-/

namespace TerseSchema.Table

variable {α : Type}

/-- Writes an entry: a known name keeps its place, a new one goes to the end. -/
def insert (table : List (String × α)) (name : String) (entry : α) : List (String × α) :=
  match table with
  | [] => [(name, entry)]
  | (name', entry') :: rest =>
    if name' = name then (name, entry) :: rest
    else (name', entry') :: insert rest name entry

/-- Writes all entries of `upper` over `lower`. -/
def merge (lower upper : List (String × α)) : List (String × α) :=
  upper.foldl (fun table (name, entry) => insert table name entry) lower

/-- The table that holds a list of entries, the last one of each name. -/
def ofEntries (entries : List (String × α)) : List (String × α) := merge [] entries

/-- The names in order of arrival. -/
def names (table : List (String × α)) : List String := table.map Prod.fst

/-- The entries in the order of their names, by code points. -/
def sorted (table : List (String × α)) : List (String × α) :=
  table.mergeSort fun a b => decide (a.1 ≤ b.1)

@[simp] theorem insert_nil (name : String) (entry : α) :
    insert [] name entry = [(name, entry)] := rfl

theorem insert_cons (name name' : String) (entry entry' : α) (rest : List (String × α)) :
    insert ((name', entry') :: rest) name entry =
      if name' = name then (name, entry) :: rest
      else (name', entry') :: insert rest name entry := rfl

/-- The entry written is the entry found. -/
@[simp] theorem lookup_insert_self (table : List (String × α)) (name : String) (entry : α) :
    (insert table name entry).lookup name = some entry := by
  induction table with
  | nil => simp
  | cons head rest ih =>
    obtain ⟨name', entry'⟩ := head
    rw [insert_cons]
    split
    · simp
    · next h =>
      have hne : (name == name') = false := by simpa using fun h' => h h'.symm
      simp [List.lookup_cons, hne, ih]

/-- Writing a name leaves every other name's entry alone. -/
theorem lookup_insert_of_ne (table : List (String × α)) {name other : String} (entry : α)
    (hne : other ≠ name) : (insert table name entry).lookup other = table.lookup other := by
  have hne' : (other == name) = false := by simpa using hne
  induction table with
  | nil => simp [List.lookup_cons, hne']
  | cons head rest ih =>
    obtain ⟨name', entry'⟩ := head
    rw [insert_cons]
    split
    · next h => subst h; simp [List.lookup_cons, hne']
    · simp [List.lookup_cons, ih]

/-- Writing a known name moves nothing; a new name goes to the end. -/
theorem names_insert (table : List (String × α)) (name : String) (entry : α) :
    names (insert table name entry) =
      if name ∈ names table then names table else names table ++ [name] := by
  induction table with
  | nil => simp [names]
  | cons head rest ih =>
    obtain ⟨name', entry'⟩ := head
    rw [insert_cons]
    by_cases h : name' = name
    · simp [names, h]
    · have h' : name ≠ name' := fun e => h e.symm
      simp only [names] at ih
      simp only [names, h, if_false, List.map_cons, ih, List.mem_cons, h', false_or]
      split <;> simp_all

end TerseSchema.Table
