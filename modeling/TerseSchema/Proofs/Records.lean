import TerseSchema.Proofs.Position

/-!
# The records of a validation

If the type names of a schema have meanings, nothing that is found is a fault of
the schema, and validation answers with the records of the positions it reaches.
Each record carries the path of its own position.

## Main definitions

* `Registry.Means` — a name has a meaning, or stands for any value.

## Main results

* `findings_cases` — what can be found at a position.
* `answer_validate`, `exists_records` — **validation with known types gives records.**
-/

namespace TerseSchema

/-! ### Known types -/

/-- A name has a meaning, or is the empty name, that accepts any value. -/
def Registry.Means (registry : Registry) (type : String) : Prop :=
  type = "" ∨ ∃ known, registry.get? type = some known

/-- Checking a value against such a name gives an answer. -/
theorem Registry.Means.check {registry : Registry} {type : String} (h : registry.Means type)
    (v : Value) (ctx : Context) : ∃ b, registry.check type v ctx = .ok b := by
  by_cases hempty : type = ""
  · exact ⟨true, by rw [Registry.check, if_pos hempty]⟩
  · obtain ⟨known, hknown⟩ := h.resolve_left hempty
    exact ⟨known.check v ctx, by rw [Registry.check, if_neg hempty, hknown]⟩

/-- A scalar that is there has a record exactly if its type rejects it. -/
theorem violated_checked_iff {registry : Registry} {type : String} (hmeans : registry.Means type)
    (v : Value) (ctx : Context) :
    (∃ r, .violated r ∈ checked registry type v ctx) ↔ registry.check type v ctx = .ok false := by
  obtain ⟨b, hb⟩ := hmeans.check v ctx
  rw [hb]
  constructor
  · rintro ⟨r, hr⟩
    rw [checked, hb] at hr
    rcases List.mem_append.mp hr with hr | hr
    · obtain ⟨call, -, he⟩ := List.mem_map.mp hr
      cases he
    · cases b with
      | true => cases hr
      | false => rfl
  · intro h
    refine ⟨⟨ctx.path, .validationFailed⟩, ?_⟩
    rw [checked, hb, h]
    exact List.mem_append_right _ (List.mem_singleton_self _)

/-- Where all types are known, so is that of every scalar. -/
theorem means_of_mem_nodes {registry : Registry} {schema : Arena}
    (h : registry.ensureKnown schema.types = .ok ()) {optional : Bool} {type : String}
    {declared : Option Default} (hnode : .scalar optional type declared ∈ schema.nodes) :
    registry.Means type := by
  have hmem : type ∈ schema.types := List.mem_filterMap.mpr ⟨_, hnode, rfl⟩
  rw [Registry.ensureKnown] at h
  split at h
  · cases h
  · next hfind =>
    have htype := List.find?_eq_none.mp hfind type hmem
    by_cases hempty : type = ""
    · exact .inl hempty
    · exact .inr (Option.ne_none_iff_exists'.mp (by simpa [hempty, Registry.has] using htype))

theorem allScalars_known {registry : Registry} {schema : Arena}
    (h : registry.ensureKnown schema.types = .ok ()) :
    schema.tree.AllScalars fun _ type _ => registry.Means type :=
  (allScalars_tree schema).imp fun _ _ _ hnode => hnode.elim .inl (means_of_mem_nodes h)

/-! ### What can be found -/

namespace Position

/-- Where nothing is, the schema is violated unless it is optional. -/
theorem exists_missing (registry : Registry) (root : Value) (schema : Tree) {place : Place}
    (hp : place.present = none) :
    ∃ violation, findings registry root ⟨schema, place⟩ =
      missing schema.optional place violation := by
  cases schema <;> exact ⟨_, by simp only [findings, hp]; rfl⟩

/-- What can be found at a position: calls, violations at its own path, and the
fault of a scalar whose type has no meaning. -/
theorem findings_cases {registry : Registry} {root : Value} {q : Position} {f : Finding}
    (h : f ∈ q.findings registry root) :
    (∃ call, f = .called call) ∨ (∃ violation, f = .violated ⟨q.place.path, violation⟩) ∨
      ∃ optional type declared v e, q.schema = .scalar optional type declared ∧
        registry.check type v ⟨q.place.path, root, q.place.parent⟩ = .error e ∧
        f = .faulted e := by
  obtain ⟨schema, place⟩ := q
  cases hp : place.present with
  | none =>
    obtain ⟨violation, hf⟩ := exists_missing registry root schema hp
    rw [hf, missing] at h
    split at h
    · cases h
    · exact .inr (.inl ⟨violation, List.mem_singleton.mp h⟩)
  | some v =>
    -- a group meets a value of its kind, or is violated once
    have hkind : ∀ {b : Bool} {violation}, f ∈ (if b then [] else
        [Finding.violated ⟨place.path, violation⟩]) →
        ∃ violation, f = .violated ⟨place.path, violation⟩ := by
      intro b violation hf
      cases b with
      | true => cases hf
      | false => exact ⟨violation, List.mem_singleton.mp hf⟩
    cases schema with
    | scalar optional type declared =>
      simp only [findings, hp, checked] at h
      rcases List.mem_append.mp h with h | h
      · obtain ⟨call, -, rfl⟩ := List.mem_map.mp h
        exact .inl ⟨call, rfl⟩
      · cases hc : registry.check type v ⟨place.path, root, place.parent⟩ with
        | error e =>
          rw [hc] at h
          exact .inr (.inr ⟨optional, type, declared, v, e, rfl, hc, List.mem_singleton.mp h⟩)
        | ok b =>
          rw [hc] at h
          cases b with
          | true => cases h
          | false => exact .inr (.inl ⟨_, List.mem_singleton.mp h⟩)
    | array optional parts => exact .inr (.inl (hkind (by simpa only [findings, hp] using h)))
    | object optional fields wildcard =>
      exact .inr (.inl (hkind (by simpa only [findings, hp] using h)))

/-- A record names the position that it is found at. -/
theorem path_of_violated {registry : Registry} {root : Value} {q : Position} {r : Record}
    (h : .violated r ∈ q.findings registry root) : r.path = q.place.path := by
  obtain ⟨call, he⟩ | ⟨violation, he⟩ | ⟨_, _, _, _, _, _, _, he⟩ := findings_cases h
  · cases he
  · rw [Finding.violated.inj he]
  · cases he

/-- With known types, no schema is at fault. -/
theorem error?_of_mem_findings {registry : Registry} {root : Value} {q : Position}
    (hq : q.schema.AllScalars fun _ type _ => registry.Means type) {f : Finding}
    (hf : f ∈ q.findings registry root) : f.error? = none := by
  obtain ⟨call, rfl⟩ | ⟨violation, rfl⟩ | ⟨optional, type, declared, v, e, hs, he, -⟩ :=
    findings_cases hf
  · rfl
  · rfl
  · rw [hs] at hq
    cases hq with
    | scalar hmeans =>
      obtain ⟨b, hb⟩ := hmeans.check v ⟨q.place.path, root, q.place.parent⟩
      rw [hb] at he
      cases he

/-! ### The answer -/

/-- With known types, the records found are the answer. -/
theorem answer_validate {registry : Registry} {schema : Arena}
    (h : registry.ensureKnown schema.types = .ok ()) (v : Value) (pathRoot : String) :
    (validate v schema registry pathRoot).answer =
      .ok (((start schema.tree v pathRoot).validated registry v).filterMap Finding.record?) := by
  have herror : ((validation registry v).run schema.tree
      ⟨some v, ⟨pathRoot, []⟩, none⟩).findSome? Finding.error? = none := by
    rw [List.findSome?_eq_none_iff]
    intro f hf
    obtain ⟨q, hreach, hf⟩ := mem_validated (q := start schema.tree v pathRoot).mp hf
    exact error?_of_mem_findings (allScalars_reaches (allScalars_known h) hreach) hf
  simp only [validate, h, herror]
  rfl

/-- **Validation with known types gives records**: those of the positions that the
walk reaches. -/
theorem exists_records {registry : Registry} {schema : Arena}
    (h : registry.ensureKnown schema.types = .ok ()) (v : Value) (pathRoot : String) :
    ∃ records, (validate v schema registry pathRoot).answer = .ok records ∧
      ∀ r, r ∈ records ↔ ∃ q, Reaches (start schema.tree v pathRoot) q ∧
        .violated r ∈ q.findings registry v := by
  refine ⟨_, answer_validate h v pathRoot, fun r => ?_⟩
  rw [List.mem_filterMap, ← mem_validated]
  constructor
  · rintro ⟨f, hf, hr⟩
    cases f with
    | violated r' =>
      obtain rfl : r' = r := Option.some.inj hr
      exact hf
    | called call => cases hr
    | faulted e => cases hr
  · exact fun hf => ⟨_, hf, rfl⟩

end Position

end TerseSchema
