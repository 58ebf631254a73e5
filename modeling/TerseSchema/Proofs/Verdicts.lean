import TerseSchema.Proofs.Endings
import TerseSchema.Proofs.Rerooting

/-!
# Two commands, one verdict

One command prints the records of a document, another one whether there are any.  Both
go through the same steps, and both fail where the other one does.  What they say of a
document does not depend on the name that it is given in paths, be it on the command line
or in a configuration: a configuration has enumerations only, and no check of its own that
could look at a path.

## Main definitions

* `Config.nameless` — a configuration, but for the name that it gives to values.

## Main results

* `Config.ignoresRoot_registry` — the types of a configuration ignore the name of a value.
* `report_check_reroot` — **whether a document is accepted does not depend on its name.**
* `execute_agree` — two command lines say the same of a document.
* `verify_check_agree` — **two commands, one verdict, whatever name each of them gives.**
-/

namespace TerseSchema

/-- A configuration, but for the name that it gives to values. -/
def Config.nameless (config : Config) : Config := { config with pathRoot := Path.defaultRoot }

theorem Config.typeDefs_nameless (config : Config) : config.nameless.typeDefs = config.typeDefs :=
  rfl

theorem Session.configure_nameless (s : Session) (config : Config) :
    s.configure config.nameless = s.configure config := rfl

/-- The types of a configuration ignore the name of a value. -/
theorem Config.ignoresRoot_registry (config : Config) :
    ((({} : Session).configure config).registry config.typeDefs).IgnoresRoot := by
  have henums : ∀ e ∈ config.typeDefs, ∃ members, e.2 = .enum members :=
    List.forall_mem_map.mpr fun e _ => ⟨e.2, rfl⟩
  exact Registry.ignoresRoot_snapshot
    (fun e he => henums e (Table.mem_of_mem_ofEntries he)) henums

namespace CommandLine

/-! ### Two reports -/

section
variable {files : Files} {draws draws' : Draws} {schema name : String}
  {pathRoot pathRoot' : Option String}

/-- **Whether a document is accepted does not depend on its name**, nor on any draw. -/
theorem report_check_reroot {s : Session} {config config' : Config}
    (htypes : config.typeDefs = config'.typeDefs)
    (h : (s.registry config.typeDefs).IgnoresRoot) :
    report files s config draws (.check schema name pathRoot) =
      report files s config' draws' (.check schema name pathRoot') := by
  have hcheck : ∀ v text, (s.check v text (verifyOptions config pathRoot)).answer =
      (s.check v text (verifyOptions config' pathRoot')).answer := by
    intro v text
    rw [verifyOptions, verifyOptions, Config.verifyOptions, Config.verifyOptions, ← htypes]
    exact Session.check_reroot h v text _ _
  simp only [report, hcheck]

/-- **Two command lines say the same of a document**, if their configurations differ in the
name of the value at most. -/
theorem execute_agree {config config' : Option String}
    (h : (loadConfig files config).map Config.nameless =
      (loadConfig files config').map Config.nameless) (verbosity verbosity' : Nat) :
    Agree (execute files draws ⟨config, verbosity, .verify schema name pathRoot⟩)
      (execute files draws' ⟨config', verbosity', .check schema name pathRoot'⟩) := by
  simp only [execute]
  cases hc : loadConfig files config with
  | error failure =>
    cases hc' : loadConfig files config' with
    | error failure' =>
      rw [hc, hc'] at h
      rw [← Except.error.inj h]
      exact .failed failure
    | ok c' =>
      rw [hc, hc'] at h
      cases h
  | ok c =>
    cases hc' : loadConfig files config' with
    | error failure' =>
      rw [hc, hc'] at h
      cases h
    | ok c' =>
      rw [hc, hc'] at h
      have hnameless : c.nameless = c'.nameless := Except.ok.inj h
      have htypes : c.typeDefs = c'.typeDefs := by
        rw [← c.typeDefs_nameless, hnameless, c'.typeDefs_nameless]
      have hsession : ({} : Session).configure c = ({} : Session).configure c' := by
        rw [← Session.configure_nameless, hnameless, Session.configure_nameless]
      simp only [bind, Except.bind, ← hsession]
      rw [← report_check_reroot htypes c.ignoresRoot_registry]
      exact report_agree files _ c draws schema name pathRoot

end

/-! ### Two runs -/

/-- Whoever prints records prints a colon. -/
theorem colon_mem_printed {records : List Record} (h : records ≠ []) :
    ':' ∈ (printed (records.map Record.text)).toList := by
  obtain ⟨r, rest, rfl⟩ := List.exists_cons_of_ne_nil h
  simp [printed, Record.text, String.join_cons]

/-- What is left behind by two commands that say the same. -/
theorem Agree.outcomes {x x' : Except Failure Report} (h : Agree x x') :
    (outcome x).exit = (outcome x').exit ∧ (outcome x).errors = (outcome x').errors ∧
      ((outcome x').stdout = "true\n" ↔ (outcome x).stdout = "ok\n") ∧
      ((outcome x').stdout = "false\n" ↔ ∃ records : List Record, records ≠ [] ∧
        (outcome x).stdout = printed (records.map Record.text)) := by
  have hcolon : ∀ text : String, ':' ∉ text.toList → ¬ ∃ records : List Record, records ≠ [] ∧
      text = printed (records.map Record.text) := by
    rintro text htext ⟨records, hne, rfl⟩
    exact htext (colon_mem_printed hne)
  cases h with
  | failed failure =>
    have hnothing : (outcome (.error failure)).stdout = "" := rfl
    rw [hnothing]
    refine ⟨rfl, rfl, ?_, ?_⟩
    · exact iff_of_false (by decide) (by decide)
    · exact iff_of_false (by decide) (hcolon _ (by decide))
  | accepted =>
    refine ⟨rfl, rfl, ?_, ?_⟩
    · exact iff_of_true rfl rfl
    · exact iff_of_false (by decide) (hcolon _ (by decide))
  | rejected hne =>
    refine ⟨rfl, rfl, ?_, ?_⟩
    · refine iff_of_false (by decide) fun hok => ?_
      exact hcolon "ok\n" (by decide) ⟨_, hne, hok.symm⟩
    · exact iff_of_true rfl ⟨_, hne, rfl⟩

/-- **Two commands, one verdict.**  On one document and one schema, the command that prints
records and the one that prints whether there are any end with the same exit code and the
same failure, if there is one; and the second one prints `true` exactly if the first one
prints `ok`, and `false` exactly if it prints records.  The name of the value does not
matter, neither the one that a command line gives nor the one of a configuration. -/
theorem verify_check_agree (files : Files) (draws draws' : Draws) {args args' : List String}
    {config config' : Option String} {verbosity verbosity' : Nat} {schema name : String}
    {pathRoot pathRoot' : Option String}
    (h : read args = .ok ⟨config, verbosity, .verify schema name pathRoot⟩)
    (h' : read args' = .ok ⟨config', verbosity', .check schema name pathRoot'⟩)
    (hconfig : (loadConfig files config).map Config.nameless =
      (loadConfig files config').map Config.nameless) :
    let o := run files draws args
    let o' := run files draws' args'
    o.exit = o'.exit ∧ o.errors = o'.errors ∧ (o'.stdout = "true\n" ↔ o.stdout = "ok\n") ∧
      (o'.stdout = "false\n" ↔ ∃ records : List Record, records ≠ [] ∧
        o.stdout = printed (records.map Record.text)) := by
  rw [run_eq_outcome h, run_eq_outcome h']
  exact (execute_agree hconfig verbosity verbosity').outcomes

/-- Two configurations that differ in the name of the value, and a document of two tones. -/
def paintFiles : Files := fun path =>
  [("paint.yaml", "types:\n  tone: [warm, cold]\nerror_path_root: paint\n"),
    ("plain.yaml", "types: \x7btone: [warm, cold]\x7d\n"),
    ("tones.json", "[\"warm\", \"odd\"]")].lookup path

/-- A document that is rejected under two names. -/
theorem verify_check_agree_tones :
    let draws : Draws := ⟨fun _ => 0, fun _ => 0⟩
    let o := run paintFiles draws ["verify", "[tone]", "tones.json", "--config", "paint.yaml"]
    let o' := run paintFiles draws
      ["--config=plain.yaml", "check", "--path-root", "p", "[tone]", "tones.json"]
    o.stdout = "paint.1: validation failed\n" ∧ o'.stdout = "false\n" ∧ o.exit = o'.exit ∧
      o.errors = o'.errors := by
  intro draws o o'
  have hread : read ["verify", "[tone]", "tones.json", "--config", "paint.yaml"] =
      .ok ⟨some "paint.yaml", 0, .verify "[tone]" "tones.json" none⟩ := by decide +kernel
  have hread' : read ["--config=plain.yaml", "check", "--path-root", "p", "[tone]",
      "tones.json"] = .ok ⟨some "plain.yaml", 0, .check "[tone]" "tones.json" (some "p")⟩ := by
    decide +kernel
  obtain ⟨hexit, herrors, -, hfalse⟩ :=
    verify_check_agree paintFiles draws draws hread hread' (by decide +kernel)
  have hstdout : o.stdout = "paint.1: validation failed\n" := by decide +kernel
  have hrecords : o.stdout = printed (List.map Record.text
      [⟨⟨"paint", [.item 1]⟩, .validationFailed⟩]) := hstdout.trans (by decide)
  exact ⟨hstdout, hfalse.mpr ⟨_, List.cons_ne_nil _ _, hrecords⟩, hexit, herrors⟩

end CommandLine

end TerseSchema
