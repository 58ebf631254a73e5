import Mathlib.Data.List.Nodup
import Mathlib.Data.List.Induction
import TerseSchema.Schema.Term

/-!
# What a table holds

A table of entries is determined by its names and by what it says of each name:
the names stand in the order of their first entry, and each stands for its last
entry.  Everything else about tables follows from these two facts.

## Main results

* `names_ofEntries`, `lookup_ofEntries` — the two facts.
* `ofEntries_of_nodup`, `ofEntries_append` — entries of distinct names are a table as
  they stand, and stay so while others are written behind them.
* `ofEntries_map` — changing what the names stand for leaves the table alone.
* `declaredFields_map`, `wildcard?_map` — the same for the entries of an object.
-/

namespace TerseSchema.Table

variable {α β : Type}

/-! ### Writing -/

@[simp] theorem names_nil : names ([] : List (String × α)) = [] := rfl

@[simp] theorem names_cons (e : String × α) (es : List (String × α)) :
    names (e :: es) = e.1 :: names es := rfl

@[simp] theorem names_append (as bs : List (String × α)) :
    names (as ++ bs) = names as ++ names bs := List.map_append

/-- The last entry is written last. -/
theorem ofEntries_concat (es : List (String × α)) (e : String × α) :
    ofEntries (es ++ [e]) = insert (ofEntries es) e.1 e.2 := by
  simp [ofEntries, merge, List.foldl_append]

/-- A new name goes to the end. -/
theorem insert_of_notMem {table : List (String × α)} {name : String} (entry : α)
    (h : name ∉ names table) : insert table name entry = table ++ [(name, entry)] := by
  induction table with
  | nil => rfl
  | cons head rest ih =>
    obtain ⟨name', entry'⟩ := head
    rw [names_cons, List.mem_cons, not_or] at h
    rw [insert_cons, if_neg fun e => h.1 e.symm, ih h.2, List.cons_append]

/-- A name that is not among the first entries is written behind them. -/
theorem insert_append_of_notMem {as : List (String × α)} (bs : List (String × α)) {name : String}
    (entry : α) (h : name ∉ names as) :
    insert (as ++ bs) name entry = as ++ insert bs name entry := by
  induction as with
  | nil => rfl
  | cons head rest ih =>
    obtain ⟨name', entry'⟩ := head
    rw [names_cons, List.mem_cons, not_or] at h
    rw [List.cons_append, insert_cons, if_neg fun e => h.1 e.symm, ih h.2, List.cons_append]

theorem insert_map (f : α → β) (table : List (String × α)) (name : String) (entry : α) :
    insert (table.map (Prod.map id f)) name (f entry) =
      (insert table name entry).map (Prod.map id f) := by
  induction table with
  | nil => rfl
  | cons head rest ih =>
    obtain ⟨name', entry'⟩ := head
    rw [insert_cons, List.map_cons, Prod.map_apply, id, insert_cons]
    split
    · rfl
    · rw [ih, List.map_cons, Prod.map_apply, id]

theorem mem_of_mem_insert {table : List (String × α)} {name : String} {entry : α}
    {e : String × α} (h : e ∈ insert table name entry) : e = (name, entry) ∨ e ∈ table := by
  induction table with
  | nil => exact Or.inl (List.mem_singleton.mp h)
  | cons head rest ih =>
    obtain ⟨name', entry'⟩ := head
    rw [insert_cons] at h
    split at h
    · rcases List.mem_cons.mp h with rfl | h
      · exact Or.inl rfl
      · exact Or.inr (List.mem_cons_of_mem _ h)
    · rcases List.mem_cons.mp h with rfl | h
      · exact Or.inr List.mem_cons_self
      · exact (ih h).imp_right (List.mem_cons_of_mem _)

/-! ### The table of a list of entries -/

/-- **The names of a table**, each at the place of its first entry. -/
theorem names_ofEntries (es : List (String × α)) :
    names (ofEntries es) = (names es).eraseDups := by
  induction es using List.reverseRecOn with
  | nil => rfl
  | append_singleton es e ih =>
    rw [ofEntries_concat, names_insert, names_append, List.eraseDups_append, ih]
    by_cases h : e.1 ∈ names es
    · rw [if_pos (List.mem_eraseDups.mpr h)]
      simp [List.removeAll, h]
    · rw [if_neg (mt List.mem_eraseDups.mp h)]
      simp [List.removeAll, h, List.eraseDups_cons]

/-- **What a table says of a name**: its last entry. -/
theorem lookup_ofEntries (es : List (String × α)) (name : String) :
    (ofEntries es).lookup name = es.reverse.lookup name := by
  induction es using List.reverseRecOn with
  | nil => rfl
  | append_singleton es e ih =>
    obtain ⟨name', entry⟩ := e
    rw [ofEntries_concat, List.reverse_append, List.reverse_singleton, List.singleton_append,
      List.lookup_cons]
    by_cases h : name = name'
    · subst h
      rw [lookup_insert_self, beq_self_eq_true]
    · rw [lookup_insert_of_ne _ _ h, ih, beq_eq_false_iff_ne.mpr h]

/-- No name occurs twice in a table. -/
theorem nodup_names_ofEntries (es : List (String × α)) : (names (ofEntries es)).Nodup := by
  induction es using List.reverseRecOn with
  | nil => exact List.nodup_nil
  | append_singleton es e ih =>
    rw [ofEntries_concat, names_insert]
    split
    · exact ih
    · next h => exact List.nodup_append.mpr ⟨ih, List.nodup_singleton _, by grind⟩

/-- A table holds only entries that were written. -/
theorem mem_of_mem_ofEntries {es : List (String × α)} {e : String × α}
    (h : e ∈ ofEntries es) : e ∈ es := by
  induction es using List.reverseRecOn with
  | nil => exact h
  | append_singleton es e' ih =>
    rw [ofEntries_concat] at h
    rw [List.mem_append, List.mem_singleton]
    rcases mem_of_mem_insert h with rfl | h
    · exact Or.inr rfl
    · exact Or.inl (ih h)

/-- Entries of distinct names are a table as they stand. -/
theorem ofEntries_of_nodup {es : List (String × α)} (h : (names es).Nodup) :
    ofEntries es = es := by
  induction es using List.reverseRecOn with
  | nil => rfl
  | append_singleton es e ih =>
    rw [names_append, List.nodup_append] at h
    rw [ofEntries_concat, ih h.1, insert_of_notMem]
    exact fun he => h.2.2 _ he _ (List.mem_singleton_self _) rfl

theorem mem_names_ofEntries {es : List (String × α)} {name : String} :
    name ∈ names (ofEntries es) ↔ name ∈ names es := by
  rw [names_ofEntries, List.mem_eraseDups]

theorem length_insert (table : List (String × α)) (name : String) (entry : α) :
    (insert table name entry).length =
      if name ∈ names table then table.length else table.length + 1 := by
  have h := congrArg List.length (names_insert table name entry)
  rw [names, List.length_map] at h
  rw [h]
  split
  · rw [names, List.length_map]
  · rw [List.length_append, names, List.length_map, List.length_singleton]

theorem length_ofEntries_le (es : List (String × α)) : (ofEntries es).length ≤ es.length := by
  induction es using List.reverseRecOn with
  | nil => exact Nat.le_refl _
  | append_singleton es e ih =>
    rw [ofEntries_concat, length_insert, List.length_append, List.length_singleton]
    split <;> omega

/-- **A table keeps the number of its entries if no name is written twice.** -/
theorem length_ofEntries_eq_iff {es : List (String × α)} :
    (ofEntries es).length = es.length ↔ (names es).Nodup := by
  constructor
  · induction es using List.reverseRecOn with
    | nil => exact fun _ => List.nodup_nil
    | append_singleton es e ih =>
      intro h
      have hle := length_ofEntries_le es
      rw [ofEntries_concat, length_insert, List.length_append, List.length_singleton] at h
      split at h
      · omega
      · next hnew =>
        rw [mem_names_ofEntries] at hnew
        rw [names_append, List.nodup_append]
        refine ⟨ih (by omega), List.nodup_singleton _, ?_⟩
        rintro name hname name' hname' rfl
        exact hnew (List.mem_singleton.mp hname' ▸ hname)
  · exact fun h => by rw [ofEntries_of_nodup h]

/-- Entries of distinct names stay where they are while others are written behind
them. -/
theorem ofEntries_append {as bs : List (String × α)} (ha : (names as).Nodup)
    (h : ∀ name ∈ names bs, name ∉ names as) : ofEntries (as ++ bs) = as ++ ofEntries bs := by
  induction bs using List.reverseRecOn with
  | nil => rw [List.append_nil, ofEntries_of_nodup ha]; exact (List.append_nil as).symm
  | append_singleton bs e ih =>
    rw [names_append, List.forall_mem_append] at h
    have he : e.1 ∉ names as := h.2 e.1 (List.mem_singleton_self _)
    rw [← List.append_assoc, ofEntries_concat, ih h.1, insert_append_of_notMem _ _ he,
      ofEntries_concat]

/-- Changing what the names stand for leaves the table alone. -/
theorem ofEntries_map (f : α → β) (es : List (String × α)) :
    ofEntries (es.map (Prod.map id f)) = (ofEntries es).map (Prod.map id f) := by
  induction es using List.reverseRecOn with
  | nil => rfl
  | append_singleton es e ih =>
    rw [List.map_append, List.map_singleton, ofEntries_concat, ofEntries_concat, ih,
      Prod.map_fst, Prod.map_snd, id, insert_map]

/-! ### Looking up -/

/-- In entries of distinct names each entry is the one its name finds. -/
theorem lookup_eq_some_of_mem : ∀ {es : List (String × α)} {name : String} {entry : α},
    (names es).Nodup → (name, entry) ∈ es → es.lookup name = some entry
  | (n, a) :: es, name, entry, hd, h => by
    rw [names_cons, List.nodup_cons] at hd
    rcases List.mem_cons.mp h with h | h
    · obtain ⟨rfl, rfl⟩ := Prod.mk.inj h
      exact List.lookup_cons_self
    · have hmem : name ∈ names es := List.mem_map_of_mem h
      have hne : (name == n) = false := beq_eq_false_iff_ne.mpr fun e => hd.1 (e ▸ hmem)
      rw [List.lookup_cons, hne]
      exact lookup_eq_some_of_mem hd.2 h

/-- Of entries of distinct names, no two have the same name. -/
theorem entry_unique {es : List (String × α)} {name : String} {a b : α} (h : (names es).Nodup)
    (ha : (name, a) ∈ es) (hb : (name, b) ∈ es) : a = b := by
  have hlookup := lookup_eq_some_of_mem h ha
  rw [lookup_eq_some_of_mem h hb] at hlookup
  exact (Option.some.inj hlookup).symm

theorem mem_of_lookup_eq_some : ∀ {es : List (String × α)} {name : String} {entry : α},
    es.lookup name = some entry → (name, entry) ∈ es
  | (n, a) :: es, name, entry, h => by
    rw [List.lookup_cons] at h
    split at h
    · next hn =>
      rw [eq_of_beq hn, Option.some.inj h]
      exact List.mem_cons_self
    · exact List.mem_cons_of_mem _ (mem_of_lookup_eq_some h)

theorem lookup_eq_none_of_notMem {es : List (String × α)} {name : String}
    (h : name ∉ names es) : es.lookup name = none := by
  rcases hl : es.lookup name with _ | entry
  · rfl
  · exact absurd (List.mem_map_of_mem (mem_of_lookup_eq_some hl)) h

theorem isSome_lookup_iff {es : List (String × α)} {name : String} :
    (es.lookup name).isSome ↔ name ∈ names es := by
  rw [Option.isSome_iff_exists]
  constructor
  · rintro ⟨entry, h⟩
    exact List.mem_map_of_mem (mem_of_lookup_eq_some h)
  · intro h
    by_contra hnone
    have hlookup := Option.eq_none_iff_forall_ne_some.mpr fun entry he => hnone ⟨entry, he⟩
    obtain ⟨e, he, rfl⟩ := List.mem_map.mp h
    exact absurd (List.lookup_eq_none_iff.mp hlookup e he) (by simp)

/-- A table is determined by its names and by what it says of each name. -/
theorem eq_filterMap_lookup {table : List (String × α)} (h : (names table).Nodup) :
    table = (names table).filterMap fun name => (table.lookup name).map (name, ·) := by
  rw [names, List.filterMap_map]
  symm
  conv_rhs => rw [← List.map_id table]
  rw [← List.filterMap_eq_map]
  refine List.filterMap_congr fun e he => ?_
  rw [Function.comp_apply, lookup_eq_some_of_mem h he]
  rfl

end TerseSchema.Table

namespace TerseSchema

variable {α β : Type}

/-! ### Lists side by side -/

/-- What is on the right of a relation has every property that the relation gives. -/
theorem forall_mem_right {R : α → β → Prop} {p : β → Prop} {xs : List α} {ys : List β}
    (h : List.Forall₂ R xs ys) (hp : ∀ x y, R x y → p y) : ∀ y ∈ ys, p y := by
  induction h with
  | nil => exact List.forall_mem_nil _
  | cons hxy _ ih => exact List.forall_mem_cons.mpr ⟨hp _ _ hxy, ih⟩

/-- Lists that are related one by one are so by their elements. -/
theorem forall₂_and_mem {R : α → β → Prop} {xs : List α} {ys : List β}
    (h : List.Forall₂ R xs ys) :
    List.Forall₂ (fun x y => x ∈ xs ∧ y ∈ ys ∧ R x y) xs ys := by
  rw [List.forall₂_iff_zip] at h ⊢
  exact ⟨h.1, fun he => ⟨(List.of_mem_zip he).1, (List.of_mem_zip he).2, h.2 he⟩⟩

/-- What is on the left of a relation has a partner on the right. -/
theorem exists_mem_right {R : α → β → Prop} {xs : List α} {ys : List β}
    (h : List.Forall₂ R xs ys) : ∀ x ∈ xs, ∃ y ∈ ys, R x y := by
  induction h with
  | nil => exact List.forall_mem_nil _
  | @cons x y xs ys hxy _ ih =>
    refine List.forall_mem_cons.mpr ⟨⟨y, List.mem_cons_self, hxy⟩, fun x hx => ?_⟩
    obtain ⟨y, hy, hxy⟩ := ih x hx
    exact ⟨y, List.mem_cons_of_mem _ hy, hxy⟩

/-- A relation that follows from another one by what is on the left holds one by one if that
holds of all on the left. -/
theorem forall₂_iff_forall_mem {R S : α → β → Prop} {p : α → Prop} {xs : List α} {ys : List β}
    (h : List.Forall₂ R xs ys) (hS : ∀ x ∈ xs, ∀ y, R x y → (S x y ↔ p x)) :
    List.Forall₂ S xs ys ↔ ∀ x ∈ xs, p x := by
  induction h with
  | nil => exact iff_of_true .nil (List.forall_mem_nil _)
  | cons hxy _ ih =>
    rw [List.forall₂_cons, List.forall_mem_cons, hS _ List.mem_cons_self _ hxy,
      ih fun x hx => hS x (List.mem_cons_of_mem _ hx)]

/-- A list of answers succeeds as a whole if it succeeds one by one. -/
theorem mapM_eq_ok_iff {ε : Type} {f : α → Except ε β} {xs : List α} : ∀ {ys : List β},
    xs.mapM f = .ok ys ↔ List.Forall₂ (fun x y => f x = .ok y) xs ys := by
  induction xs with
  | nil =>
    intro ys
    rw [List.mapM_nil, List.forall₂_nil_left_iff]
    exact ⟨fun h => (Except.ok.inj h).symm, fun h => congrArg Except.ok h.symm⟩
  | cons x xs ih =>
    intro ys
    rw [List.mapM_cons]
    constructor
    · intro h
      cases hx : f x with
      | error e =>
        rw [hx] at h
        cases h
      | ok y =>
        cases hxs : xs.mapM f with
        | error e =>
          rw [hx, hxs] at h
          cases h
        | ok more =>
          rw [hx, hxs] at h
          rw [← Except.ok.inj h]
          exact .cons hx (ih.mp hxs)
    · rintro (_ | ⟨hx, hxs⟩)
      rw [hx, ih.mpr hxs]
      rfl

/-! ### The entries of an object -/

theorem declaredFields_map (f : α → β) (es : List (String × α)) :
    declaredFields (es.map (Prod.map id f)) = (declaredFields es).map (Prod.map id f) := by
  rw [declaredFields, List.filter_map, Table.ofEntries_map]
  rfl

theorem wildcard?_map (f : α → β) (es : List (String × α)) :
    wildcard? (es.map (Prod.map id f)) = (wildcard? es).map f := by
  simp only [wildcard?, List.filter_map, List.getLast?_map, Option.map_map]
  rfl

end TerseSchema
