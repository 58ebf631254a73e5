import TerseSchema.Proofs.Table
import TerseSchema.Session

/-!
# Tables over one another

A registry is read off three tables that are written over one another.  What it says
of a name is what the topmost table that has the name says, and the order in which the
entries of a table are written does not matter, as a table has one entry for a name.

## Main definitions

* `Table.Same` — two tables that say the same of every name.
* `Registry.Alike` — two registries that cannot be told apart.

## Main results

* `Table.lookup_merge` — **the table on top decides, where it has the name.**
* `Table.Same.of_perm`, `Table.Same.merge` — the order of the entries does not matter.
* `Session.get?_registry` — the three layers of a call.
* `Registry.Alike.validate_eq`, `Registry.Alike.shape_eq` — alike registries validate
  and shape alike.
-/

namespace TerseSchema

namespace Table

variable {α : Type}

/-! ### One table over another -/

theorem merge_append (lower es es' : List (String × α)) :
    merge lower (es ++ es') = merge (merge lower es) es' := List.foldl_append

theorem merge_concat (lower es : List (String × α)) (e : String × α) :
    merge lower (es ++ [e]) = insert (merge lower es) e.1 e.2 := by
  rw [merge_append]
  rfl

/-- **The table on top decides, where it has the name**, by its last entry. -/
theorem lookup_merge (lower upper : List (String × α)) (name : String) :
    (merge lower upper).lookup name = (upper.reverse.lookup name).or (lower.lookup name) := by
  induction upper using List.reverseRecOn with
  | nil => rfl
  | append_singleton upper e ih =>
    obtain ⟨name', entry⟩ := e
    rw [merge_concat, List.reverse_append, List.reverse_singleton, List.singleton_append,
      List.lookup_cons]
    by_cases h : name = name'
    · subst h
      rw [lookup_insert_self, beq_self_eq_true, Option.some_or]
    · rw [lookup_insert_of_ne _ _ h, ih, beq_eq_false_iff_ne.mpr h]

theorem nodup_names_insert {table : List (String × α)} (h : (names table).Nodup) (name : String)
    (entry : α) : (names (insert table name entry)).Nodup := by
  rw [names_insert]
  split
  · exact h
  · next hname => exact List.nodup_append.mpr ⟨h, List.nodup_singleton _, by grind⟩

theorem nodup_names_merge {lower : List (String × α)} (h : (names lower).Nodup)
    (upper : List (String × α)) : (names (merge lower upper)).Nodup := by
  induction upper using List.reverseRecOn with
  | nil => exact h
  | append_singleton upper e ih =>
    rw [merge_concat]
    exact nodup_names_insert ih e.1 e.2

/-! ### Tables that say the same -/

/-- Two tables that have one entry at most for a name, and say the same of every name. -/
structure Same (table table' : List (String × α)) : Prop where
  nodup : (names table).Nodup
  nodup' : (names table').Nodup
  lookup : ∀ name, table.lookup name = table'.lookup name

theorem mem_iff_lookup_eq_some {table : List (String × α)} (h : (names table).Nodup)
    {e : String × α} : e ∈ table ↔ table.lookup e.1 = some e.2 :=
  ⟨lookup_eq_some_of_mem h, mem_of_lookup_eq_some⟩

/-- **The order of the entries does not matter.** -/
theorem Same.of_perm {table table' : List (String × α)} (hd : (names table').Nodup)
    (h : table.Perm table') : Same table table' := by
  have hd' : (names table).Nodup := (h.map Prod.fst).nodup_iff.mpr hd
  refine ⟨hd', hd, fun name => Option.ext fun entry => ?_⟩
  rw [← mem_iff_lookup_eq_some (e := (name, entry)) hd', h.mem_iff, mem_iff_lookup_eq_some hd]

theorem Same.refl {table : List (String × α)} (h : (names table).Nodup) : Same table table :=
  ⟨h, h, fun _ => rfl⟩

/-- Tables that say the same hold the same entries. -/
theorem Same.perm {table table' : List (String × α)} (h : Same table table') :
    table.Perm table' := by
  refine (List.perm_ext_iff_of_nodup h.nodup.of_map h.nodup'.of_map).mpr fun e => ?_
  rw [mem_iff_lookup_eq_some h.nodup, mem_iff_lookup_eq_some h.nodup', h.lookup]

/-- Over the same table, tables that say the same come to the same. -/
theorem Same.merge {lower lower' upper upper' : List (String × α)} (h : Same lower lower')
    (hupper : ∀ name, upper.reverse.lookup name = upper'.reverse.lookup name) :
    Same (Table.merge lower upper) (Table.merge lower' upper') := by
  refine ⟨nodup_names_merge h.nodup upper, nodup_names_merge h.nodup' upper', fun name => ?_⟩
  rw [lookup_merge, lookup_merge, hupper, h.lookup]

/-- In entries of distinct names it does not matter which one is the last. -/
theorem lookup_reverse {table : List (String × α)} (h : (names table).Nodup) (name : String) :
    table.reverse.lookup name = table.lookup name :=
  (Same.of_perm h (List.reverse_perm table)).lookup name

/-- Entries in whatever order are the last ones of what was written. -/
theorem lookup_reverse_of_perm {entries written : List (String × α)}
    (h : entries.Perm (ofEntries written)) (name : String) :
    entries.reverse.lookup name = written.reverse.lookup name := by
  have hsame := Same.of_perm (nodup_names_ofEntries written) h
  rw [lookup_reverse hsame.nodup, hsame.lookup, lookup_ofEntries]

/-! ### The order of names -/

theorem sorted_perm (table : List (String × α)) : (sorted table).Perm table :=
  List.mergeSort_perm _ _

theorem nodup_names_sorted {table : List (String × α)} (h : (names table).Nodup) :
    (names (sorted table)).Nodup :=
  ((sorted_perm table).map Prod.fst).nodup_iff.mpr h

theorem pairwise_sorted (table : List (String × α)) :
    (sorted table).Pairwise fun a b => a.1 ≤ b.1 := by
  have htrans : ∀ a b c : String × α, decide (a.1 ≤ b.1) = true → decide (b.1 ≤ c.1) = true →
      decide (a.1 ≤ c.1) = true := by
    intro a b c hab hbc
    exact decide_eq_true (String.le_trans (of_decide_eq_true hab) (of_decide_eq_true hbc))
  have htotal : ∀ a b : String × α, (decide (a.1 ≤ b.1) || decide (b.1 ≤ a.1)) = true := by
    intro a b
    simpa using String.le_total a.1 b.1
  exact (List.pairwise_mergeSort htrans htotal table).imp of_decide_eq_true

/-- Tables that say the same are the same in the order of their names. -/
theorem Same.sorted_eq {table table' : List (String × α)} (h : Same table table') :
    sorted table = sorted table' := by
  have hperm : (sorted table).Perm (sorted table') :=
    (sorted_perm table).trans (h.perm.trans (sorted_perm table').symm)
  refine hperm.eq_of_pairwise (fun a b ha hb hab hba => ?_) (pairwise_sorted table)
    (pairwise_sorted table')
  -- two entries of one name are one
  have hname : a.1 = b.1 := String.le_antisymm hab hba
  have ha : table.lookup a.1 = some a.2 :=
    (mem_iff_lookup_eq_some h.nodup).mp ((sorted_perm table).mem_iff.mp ha)
  have hb : table'.lookup b.1 = some b.2 :=
    (mem_iff_lookup_eq_some h.nodup').mp ((sorted_perm table').mem_iff.mp hb)
  rw [h.lookup, hname, hb] at ha
  exact Prod.ext hname (Option.some.inj ha).symm

end Table

/-! ### Registries that cannot be told apart -/

namespace Registry

/-- Two registries that say the same of every name. -/
def Alike (r r' : Registry) : Prop := Table.Same r.types r'.types

theorem nodup_builtin : (Table.names builtin.types).Nodup := Table.nodup_names_ofEntries _

/-- Of a snapshot, the table on top decides, where it has the name. -/
theorem get?_snapshot (global call : List (String × TypeDef)) (name : String) :
    (snapshot global call).get? name =
      (call.reverse.lookup name).or ((global.reverse.lookup name).or (builtin.get? name)) := by
  rw [get?, snapshot, Table.lookup_merge, Table.lookup_merge]
  rfl

/-- Tables that say the same make registries that cannot be told apart. -/
theorem snapshot_alike {global global' call call' : List (String × TypeDef)}
    (h : ∀ name, global.reverse.lookup name = global'.reverse.lookup name)
    (h' : ∀ name, call.reverse.lookup name = call'.reverse.lookup name) :
    (snapshot global call).Alike (snapshot global' call') :=
  ((Table.Same.refl nodup_builtin).merge h).merge h'

section
variable {r r' : Registry} (h : r.Alike r')
include h

theorem Alike.get?_eq : r.get? = r'.get? := funext h.lookup

theorem Alike.has_eq : r.has = r'.has := by
  funext name
  rw [has, has, h.get?_eq]

theorem Alike.check_eq : r.check = r'.check := by
  funext name v ctx
  rw [check, check, h.get?_eq]

theorem Alike.calls_eq : r.calls = r'.calls := by
  funext name v ctx
  rw [calls, calls, h.get?_eq]

theorem Alike.sample_eq : r.sample = r'.sample := by
  funext name draw
  rw [sample, sample, h.get?_eq]

theorem Alike.cast_eq : r.cast = r'.cast := by
  funext name text
  rw [cast, cast, h.get?_eq]

theorem Alike.names_eq : r.names = r'.names := by
  rw [names, names, h.sorted_eq]

theorem Alike.samples_eq : r.samples = r'.samples := by
  funext draws
  rw [samples, samples, h.sorted_eq]

theorem Alike.ensureKnown_eq : r.ensureKnown = r'.ensureKnown := by
  funext names
  rw [ensureKnown, ensureKnown, h.has_eq]

/-- Alike registries validate alike. -/
theorem Alike.validate_eq (v : Value) (schema : Arena) (pathRoot : String) :
    validate v schema r pathRoot = validate v schema r' pathRoot := by
  have hchecked : checked r = checked r' := by
    funext type v ctx
    rw [checked, checked, h.calls_eq, h.check_eq]
  have hwalk : validation r v = validation r' v := by
    rw [validation, validation, hchecked]
  rw [validate, validate, h.ensureKnown_eq, hwalk]

/-- Alike registries shape alike. -/
theorem Alike.shape_eq (v : Value) (schema : Arena) (includeOptional : Bool)
    (draws : Path → Nat) :
    shape v schema r includeOptional draws = shape v schema r' includeOptional draws := by
  have hwalk : shaping r v includeOptional draws = shaping r' v includeOptional draws := by
    rw [shaping, shaping, h.get?_eq]
  rw [shape, shape, hwalk]

end

end Registry

namespace Session

/-- The types that are registered have one entry for a name. -/
def Tidy (s : Session) : Prop := (Table.names s.types).Nodup

/-- **The three layers of a call**: its own types, those registered, the builtin kinds. -/
theorem get?_registry {s : Session} (h : s.Tidy) (call : List (String × TypeDef))
    (name : String) : (s.registry call).get? name =
      (call.reverse.lookup name).or ((s.types.lookup name).or (Registry.builtin.get? name)) := by
  rw [registry, Registry.get?_snapshot, Table.lookup_reverse h]

/-- The order in which the tables are gone through does not matter. -/
theorem registry_alike {s : Session} (h : s.Tidy) {global call call' : List (String × TypeDef)}
    (hglobal : global.Perm s.types) (hcall : call'.Perm (Table.ofEntries call)) :
    (Registry.snapshot global call').Alike (s.registry call) := by
  refine Registry.snapshot_alike (fun name => ?_) (Table.lookup_reverse_of_perm hcall)
  have hsame := Table.Same.of_perm h hglobal
  rw [Table.lookup_reverse hsame.nodup, Table.lookup_reverse h, hsame.lookup]

end Session

end TerseSchema
