import TerseSchema.Proofs.Records
import TerseSchema.Session

/-!
# Faults of a schema come before the data

A schema text may be broken, or name a type without a meaning.  Either is found out
from the text and the registry alone: the names of all nodes are looked up before any
value is, also of those that no value would lead to.  A walk that starts at all has
therefore no fault left to meet.

## Main definitions

* `Session.fault?` — what is wrong with a schema text, said without a value.

## Main results

* `ensureKnown_cases` — the first name without a meaning is at fault.
* `error?_eq_none_of_known` — **no walk meets a fault, once the names are known.**
* `validate_cases` — a compiled schema is at fault for every value or for none.
* `verify_of_fault?`, `fault?_of_verify` — a schema text is at fault for every value or
  for none.
* `faults_precede_data` — **faults do not depend on the data and precede it.**
-/

namespace TerseSchema

/-! ### Names without a meaning -/

/-- A name without a meaning is not empty and stands for nothing. -/
theorem Registry.not_means_iff {registry : Registry} {type : String} :
    ¬ registry.Means type ↔ type ≠ "" ∧ registry.has type = false := by
  rw [Registry.Means, not_or, Registry.has, ← Option.isSome_iff_exists, Bool.not_eq_true]

/-- **The first name without a meaning is at fault**, and no name is if there is none. -/
theorem ensureKnown_cases (registry : Registry) (names : List String) :
    (registry.ensureKnown names = .ok () ∧ ∀ name ∈ names, registry.Means name) ∨
      ∃ before name after, names = before ++ name :: after ∧
        (∀ known ∈ before, registry.Means known) ∧ ¬ registry.Means name ∧
        registry.ensureKnown names = .error (.unknownType name) := by
  have hmeans : ∀ name, (name ≠ "" && !registry.has name) = true ↔ ¬ registry.Means name := by
    intro name
    rw [Registry.not_means_iff]
    simp
  rw [Registry.ensureKnown]
  cases hfind : names.find? fun name => name ≠ "" && !registry.has name with
  | none =>
    refine .inl ⟨rfl, fun name hname => ?_⟩
    by_contra hnot
    exact List.find?_eq_none.mp hfind name hname ((hmeans name).mpr hnot)
  | some name =>
    obtain ⟨hname, before, after, hsplit, hbefore⟩ := List.find?_eq_some_iff_append.mp hfind
    refine .inr ⟨before, name, after, hsplit, fun known hknown => ?_, (hmeans name).mp hname, rfl⟩
    by_contra hnot
    have hfalse := hbefore known hknown
    rw [(hmeans known).mpr hnot] at hfalse
    cases hfalse

/-- With names that have a meaning, a schema is not at fault. -/
theorem ensureKnown_of_means {registry : Registry} {names : List String}
    (h : ∀ name ∈ names, registry.Means name) : registry.ensureKnown names = .ok () := by
  rcases ensureKnown_cases registry names with ⟨hknown, -⟩ | ⟨before, name, after, rfl, -, hnot, -⟩
  · exact hknown
  · exact absurd (h name (List.mem_append_right _ List.mem_cons_self)) hnot

/-- A scalar without a meaning anywhere in a schema is a fault of the schema. -/
theorem ensureKnown_of_not_allScalars {registry : Registry} {schema : Arena}
    (h : ¬ schema.tree.AllScalars fun _ type _ => registry.Means type) :
    ∃ name, registry.ensureKnown schema.types = .error (.unknownType name) := by
  rcases ensureKnown_cases registry schema.types with ⟨hknown, -⟩ | ⟨_, name, _, -, -, -, hfault⟩
  · exact absurd (allScalars_known hknown) h
  · exact ⟨name, hfault⟩

/-! ### Walks over a compiled schema -/

/-- **No walk meets a fault, once the names are known**, wherever it starts and
whatever it is given. -/
theorem error?_eq_none_of_known {registry : Registry} {schema : Arena}
    (h : registry.ensureKnown schema.types = .ok ()) (root : Value) (place : Place) :
    ∀ f ∈ (validation registry root).run schema.tree place, f.error? = none := by
  intro f hf
  obtain ⟨q, hreach, hf⟩ := Position.mem_validated (q := ⟨schema.tree, place⟩).mp hf
  exact Position.error?_of_mem_findings
    (Position.allScalars_reaches (allScalars_known h) hreach) hf

/-- What validation answers with names without a meaning is said before the walk. -/
theorem validate_of_error {registry : Registry} {schema : Arena} {e : SchemaError}
    (h : registry.ensureKnown schema.types = .error e) (v : Value) (pathRoot : String) :
    validate v schema registry pathRoot = ⟨.error e, []⟩ := by
  rw [validate, h]

/-- **A compiled schema is at fault for every value or for none**: for its first type
without a meaning, if there is one. -/
theorem validate_cases (schema : Arena) (registry : Registry) :
    ((∀ type ∈ schema.types, registry.Means type) ∧ ∀ v pathRoot, ∃ records,
      (validate v schema registry pathRoot).answer = .ok records) ∨
      ∃ before name after, schema.types = before ++ name :: after ∧
        (∀ known ∈ before, registry.Means known) ∧ ¬ registry.Means name ∧ ∀ v pathRoot,
        validate v schema registry pathRoot = ⟨.error (.unknownType name), []⟩ := by
  rcases ensureKnown_cases registry schema.types with
    ⟨hknown, hmeans⟩ | ⟨before, name, after, hsplit, hbefore, hname, hfault⟩
  · exact .inl ⟨hmeans, fun v pathRoot => ⟨_, Position.answer_validate hknown v pathRoot⟩⟩
  · exact .inr ⟨before, name, after, hsplit, hbefore, hname, validate_of_error hfault⟩

/-! ### Schema texts -/

namespace Session

/-- What is wrong with a schema text in a call with types of its own: with the text,
or with a name in it. -/
def fault? (s : Session) (types : List (String × TypeDef)) (text : String) : Option SchemaError :=
  match compileText text with
  | .error e => some e
  | .ok schema =>
    match (s.registry types).ensureKnown schema.types with
    | .error e => some e
    | .ok () => none

variable {s : Session} {text : String} {options : VerifyOptions}

theorem fault?_of_not_allScalars {types : List (String × TypeDef)} {schema : Arena}
    (hschema : compileText text = .ok schema)
    (h : ¬ schema.tree.AllScalars fun _ type _ => (s.registry types).Means type) :
    ∃ name, s.fault? types text = some (.unknownType name) := by
  obtain ⟨name, hname⟩ := ensureKnown_of_not_allScalars h
  refine ⟨name, ?_⟩
  simp only [fault?, hschema, hname]

/-- A fault is the whole answer: nothing is called. -/
theorem verify_of_fault? (hactive : s.activation.isActive = true) {e : SchemaError}
    (h : s.fault? options.types text = some e) (v : Value) :
    s.verify v text options = ⟨.error (.schema e), []⟩ := by
  rw [verify, if_pos hactive]
  cases hschema : compileText text with
  | error e' =>
    simp only [fault?, hschema, Option.some.injEq] at h
    rw [h]
  | ok schema =>
    cases hknown : (s.registry options.types).ensureKnown schema.types with
    | ok _ => simp [fault?, hschema, hknown] at h
    | error e' =>
      simp only [fault?, hschema, hknown, Option.some.injEq] at h
      simp only [validate_of_error hknown, h]

/-- Without a fault, there are violations at most. -/
theorem verify_of_fault?_eq_none (hactive : s.activation.isActive = true)
    (h : s.fault? options.types text = none) (v : Value) :
    (s.verify v text options).answer = .ok () ∨
      ∃ records, (s.verify v text options).answer = .error (.violations records) := by
  rw [verify, if_pos hactive]
  cases hschema : compileText text with
  | error e' => simp [fault?, hschema] at h
  | ok schema =>
    cases hknown : (s.registry options.types).ensureKnown schema.types with
    | error e' => simp [fault?, hschema, hknown] at h
    | ok _ =>
      simp only [Position.answer_validate hknown]
      cases ((Position.start schema.tree v options.pathRoot).validated
          (s.registry options.types) v).filterMap Finding.record? with
      | nil => exact .inl rfl
      | cons record records => exact .inr ⟨record :: records, rfl⟩

/-- **What a value ends in is the fault of the text**, which knows no value. -/
theorem fault?_of_verify (hactive : s.activation.isActive = true) {v : Value} {e : SchemaError}
    (h : (s.verify v text options).answer = .error (.schema e)) :
    s.fault? options.types text = some e := by
  cases hfault : s.fault? options.types text with
  | some e' =>
    rw [verify_of_fault? hactive hfault] at h
    rw [Rejection.schema.inj (Except.error.inj h)]
  | none =>
    rcases verify_of_fault?_eq_none hactive hfault v with hv | ⟨records, hv⟩
    · rw [hv] at h
      cases h
    · rw [hv] at h
      cases h

theorem check_of_fault? (hactive : s.activation.isActive = true) {e : SchemaError}
    (h : s.fault? options.types text = some e) (v : Value) :
    s.check v text options = ⟨.error e, []⟩ := by
  rw [check, verify_of_fault? hactive h]

theorem fault?_of_check (hactive : s.activation.isActive = true) {v : Value} {e : SchemaError}
    (h : (s.check v text options).answer = .error e) : s.fault? options.types text = some e := by
  refine fault?_of_verify (v := v) hactive ?_
  simp only [check] at h
  split at h
  · cases h
  · cases h
  · next e' hv => rw [hv, Except.error.inj h]

end Session

/-- **Faults do not depend on the data and precede it.**  A compiled schema is at
fault for every value or for none, and no walk meets a fault once its names are known.
Checking a value against a text ends in a fault exactly if the text has one in the
session, whatever the value is, and then nothing has been called; a scalar without a
meaning is such a fault wherever it stands, also below a part that may be absent and
below a wildcard that covers no key. -/
theorem faults_precede_data :
    (∀ (schema : Arena) (registry : Registry),
      ((∀ type ∈ schema.types, registry.Means type) ∧ ∀ v pathRoot, ∃ records,
        (validate v schema registry pathRoot).answer = .ok records) ∨
        ∃ before name after, schema.types = before ++ name :: after ∧
          (∀ known ∈ before, registry.Means known) ∧ ¬ registry.Means name ∧ ∀ v pathRoot,
          validate v schema registry pathRoot = ⟨.error (.unknownType name), []⟩) ∧
    (∀ (schema : Arena) (registry : Registry), registry.ensureKnown schema.types = .ok () →
      ∀ root place, ∀ f ∈ (validation registry root).run schema.tree place, f.error? = none) ∧
    ∀ (s : Session) (text : String) (options : VerifyOptions), s.activation.isActive = true →
      (∀ v e, ((s.verify v text options).answer = .error (.schema e) ↔
          s.fault? options.types text = some e) ∧
        ((s.check v text options).answer = .error e ↔ s.fault? options.types text = some e)) ∧
      (∀ e, s.fault? options.types text = some e → ∀ v,
        s.verify v text options = ⟨.error (.schema e), []⟩ ∧
          s.check v text options = ⟨.error e, []⟩) ∧
      ∀ schema, compileText text = .ok schema →
        (¬ schema.tree.AllScalars fun _ type _ => (s.registry options.types).Means type) →
        ∃ name, s.fault? options.types text = some (.unknownType name) := by
  refine ⟨validate_cases, fun schema registry => error?_eq_none_of_known, ?_⟩
  intro s text options hactive
  refine ⟨fun v e => ⟨⟨Session.fault?_of_verify hactive, fun h => ?_⟩,
    ⟨Session.fault?_of_check hactive, fun h => ?_⟩⟩, fun e h v => ⟨?_, ?_⟩, ?_⟩
  · rw [Session.verify_of_fault? hactive h]
  · rw [Session.check_of_fault? hactive h]
  · exact Session.verify_of_fault? hactive h v
  · exact Session.check_of_fault? hactive h v
  · exact fun schema => Session.fault?_of_not_allScalars

/-- A type without a meaning, below a wildcard of a part that may be absent. -/
theorem faults_precede_data_unmet : ∃ name, ∀ v,
    ({} : Session).verify v "?\x7b*:?[zzz]\x7d" {} = ⟨.error (.schema (.unknownType name)), []⟩ ∧
      ({} : Session).check v "?\x7b*:?[zzz]\x7d" {} = ⟨.error (.unknownType name), []⟩ := by
  have hschema : compileText "?\x7b*:?[zzz]\x7d" = .ok ⟨[.scalar false "zzz" none,
      .array true [0], .object true [] (some 1)], 2⟩ := by
    decide +kernel
  have hunknown : ¬ (Session.registry {} []).Means "zzz" :=
    Registry.not_means_iff.mpr ⟨by decide, by decide +kernel⟩
  have htree : Arena.tree ⟨[.scalar false "zzz" none, .array true [0], .object true [] (some 1)],
      2⟩ = .object true [] (some (.array true [.scalar false "zzz" none])) := rfl
  obtain ⟨-, hfault, hscalars⟩ := faults_precede_data.2.2 {} "?\x7b*:?[zzz]\x7d" {} rfl
  obtain ⟨name, hname⟩ := hscalars _ hschema fun hall => by
    rw [htree] at hall
    cases hall with
    | object _ hwildcard =>
      cases hwildcard _ rfl with
      | array hparts =>
        cases hparts _ (List.mem_singleton_self _) with
        | scalar hmeans => exact hunknown hmeans
  exact ⟨name, hfault _ hname⟩

end TerseSchema
