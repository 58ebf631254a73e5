import TerseSchema.CommandLine
import TerseSchema.Proofs.Faults

/-!
# How a command ends

A command passes, rejects a document, or fails, and the three cannot be taken for one
another by what they leave behind.  It fails exactly if something is missing that it
needs: the configuration, the text of a schema, a document, or sense in the schema.
Nothing has been printed then.  It rejects a document exactly if verifying the document
finds records, and these are printed, or `false` in their place.

## Main definitions

* `Session.Finds`, `Command.Finds`, `Invocation.Finds` — the records that verifying a value
  finds, that a command finds in its document, and a command line with its configuration.
* `Command.rejection` — the lines that a command prints for records.
* `Ending`, `Ending.Leaves` — the three endings, and what each leaves behind.
* `Outcome.ending` — the ending, told from what is left behind.
* `Agree` — two reports that say the same of a document.
* `Served` — everything that a command needs is there.

## Main results

* `report_agree` — **the two commands that check a document say the same of it.**
* `report_suits`, `report_of_finds` — **what a command reports**, if it reports anything.
* `exists_report_iff` — a command reports exactly if it is served.
* `run_ends_in_one_way` — **a command ends in one of three ways.**
-/

namespace TerseSchema

/-! ### What verifying finds -/

namespace Session

/-- What verifying a value against a schema text finds: records, one at least.  They are all
that validation gives under the compiled schema, and they are the answer. -/
structure Finds (s : Session) (v : Value) (text : String) (options : VerifyOptions)
    (records : List Record) : Prop where
  ne_nil : records ≠ []
  validated : ∃ schema, compileText text = .ok schema ∧
    (validate v schema (s.registry options.types) options.pathRoot).answer = .ok records
  answered : (s.verify v text options).answer = .error (.violations records)

/-- Records that are answered have been found. -/
theorem finds_of_verify {s : Session} {v : Value} {text : String} {options : VerifyOptions}
    {records : List Record} (h : (s.verify v text options).answer = .error (.violations records)) :
    s.Finds v text options records := by
  have hanswer := h
  unfold Session.verify at hanswer
  split at hanswer
  · split at hanswer
    · cases hanswer
    · next schema hschema =>
      simp only at hanswer
      split at hanswer
      · cases hanswer
      · cases hanswer
      · next found hne hfound =>
        obtain rfl := Rejection.violations.inj (Except.error.inj hanswer)
        exact ⟨hne, ⟨schema, hschema, hfound⟩, h⟩
  · cases hanswer

end Session

namespace CommandLine

/-! ### Endings -/

/-- Lines as they are printed. -/
def printed (lines : List String) : String := String.join (lines.map (· ++ "\n"))

/-- What a command leaves behind, by what it reports or why it fails. -/
def outcome : Except Failure Report → Outcome
  | .ok r => { exit := if r.passed then 0 else 1, stdout := printed r.lines }
  | .error failure => { exit := 1, errors := [failure.logged] }

/-- How a command may end. -/
inductive Ending where
  /-- It has been carried out, and all is well. -/
  | passed
  /-- It has been carried out, and its document is not accepted. -/
  | rejected
  /-- It could not be carried out. -/
  | failed
  deriving DecidableEq

/-- The records that a command finds in its document.  Two commands look for any: they load
the text of the schema and the document, and verify the one against the other. -/
def Command.Finds (files : Files) (s : Session) (config : Config) (records : List Record) :
    Command → Prop
  | .verify schema name pathRoot | .check schema name pathRoot =>
    ∃ text v, schemaText files schema = .ok text ∧ document files name = .ok v ∧
      s.Finds v text (verifyOptions config pathRoot) records
  | _ => False

/-- The lines with which a command rejects a document: one command prints all records that it
has found, in their order, and another one `false`. -/
def Command.rejection (records : List Record) : Command → List String
  | .verify _ _ _ => records.map Record.text
  | .check _ _ _ => ["false"]
  | _ => []

/-- The records that a command line finds in its document, after it has loaded its
configuration. -/
def Invocation.Finds (files : Files) (i : Invocation) (records : List Record) : Prop :=
  ∃ config, loadConfig files i.config = .ok config ∧
    i.command.Finds files (({} : Session).configure config) config records

/-- What a command line that ends so leaves behind. -/
def Ending.Leaves (files : Files) (i : Invocation) (o : Outcome) : Ending → Prop
  | .passed => o.exit = 0 ∧ o.errors = [] ∧ o.stdout ≠ ""
  | .rejected => o.exit = 1 ∧ o.errors = [] ∧
    ∃ records, i.Finds files records ∧ o.stdout = printed (i.command.rejection records)
  | .failed => o.exit = 1 ∧ (∃ failure : Failure, o.errors = [failure.logged]) ∧ o.stdout = ""

/-- How a command has ended, told from what it leaves behind. -/
def Outcome.ending (o : Outcome) : Ending :=
  if o.exit = 0 then .passed else if o.errors = [] then .rejected else .failed

/-- What two commands report that say the same of a document, one with its records and one
without. -/
inductive Agree : Except Failure Report → Except Failure Report → Prop
  | failed (failure : Failure) : Agree (.error failure) (.error failure)
  | accepted : Agree (.ok (.line "ok")) (.ok (.line "true"))
  | rejected {records : List Record} : records ≠ [] →
      Agree (.ok ⟨false, records.map Record.text⟩) (.ok ⟨false, ["false"]⟩)

/-- The argument of a command that stands for a schema. -/
def Command.schema? : Command → Option String
  | .verify schema _ _ | .check schema _ _ | .shape schema _ _ | .flatten schema
  | .typeShape schema => some schema
  | .infer _ | .types => none

/-- The argument of a command that names a document. -/
def Command.document? : Command → Option String
  | .verify _ name _ | .check _ name _ | .infer name => some name
  | .shape _ name _ => name
  | .flatten _ | .typeShape _ | .types => none

/-- A command can make use of the text of a schema.  To check a document, the schema must
not be at fault, unless validation is switched off. -/
def Command.Takes (s : Session) (types : List (String × TypeDef)) (text : String) :
    Command → Prop
  | .verify _ _ _ | .check _ _ _ => s.activation.isActive = true → s.fault? types text = none
  | .shape _ _ _ | .typeShape _ => ∃ schema, compileText text = .ok schema
  | .flatten _ => ∃ flat, TerseSchema.flatten text = .ok flat
  | .infer _ | .types => True

/-- Everything that a command needs is there. -/
structure Served (files : Files) (i : Invocation) (config : Config) : Prop where
  loaded : loadConfig files i.config = .ok config
  schema : ∀ arg ∈ i.command.schema?, ∃ text, schemaText files arg = .ok text ∧
    i.command.Takes (({} : Session).configure config) config.typeDefs text
  document : ∀ name ∈ i.command.document?, ∃ v, document files name = .ok v

/-! ### Answers that may fail -/

section
variable {ε ε' α β : Type} {x : Except ε α}

theorem bind_eq_ok {f : α → Except ε β} {b : β} :
    x >>= f = .ok b ↔ ∃ a, x = .ok a ∧ f a = .ok b := by
  cases x <;> simp [bind, Except.bind]

theorem pure_eq_ok {a b : α} : (pure a : Except ε α) = .ok b ↔ b = a := by
  simp [pure, Except.pure, eq_comm]

theorem mapError_eq_ok {f : ε → ε'} {a : α} : x.mapError f = .ok a ↔ x = .ok a := by
  cases x <;> simp [Except.mapError]

end

/-- **The three answers to a value**: it is accepted, records are found, or the schema is at
fault. -/
theorem verify_cases (s : Session) (v : Value) (text : String) (options : VerifyOptions) :
    ((s.verify v text options).answer = .ok () ∧ (s.check v text options).answer = .ok true) ∨
      (∃ records, s.Finds v text options records ∧
        (s.check v text options).answer = .ok false) ∨
      ∃ e, (s.verify v text options).answer = .error (.schema e) ∧
        (s.check v text options).answer = .error e := by
  rw [Session.check]
  cases h : (s.verify v text options).answer with
  | ok _ => exact .inl ⟨rfl, rfl⟩
  | error rejection =>
    cases rejection with
    | schema e => exact .inr (.inr ⟨e, rfl, rfl⟩)
    | violations records => exact .inr (.inl ⟨records, Session.finds_of_verify h, rfl⟩)

/-- A value that does not pass has records. -/
theorem exists_finds_of_check {s : Session} {v : Value} {text : String} {options : VerifyOptions}
    (h : (s.check v text options).answer = .ok false) :
    ∃ records, s.Finds v text options records := by
  rcases verify_cases s v text options with ⟨-, hc⟩ | ⟨records, hfound, -⟩ | ⟨e, -, hc⟩
  · rw [hc] at h
    cases h
  · exact ⟨records, hfound⟩
  · rw [hc] at h
    cases h

/-- A value is accepted or rejected exactly if the schema is not at fault, or validation is
switched off. -/
theorem exists_check_iff (s : Session) (v : Value) (text : String) (options : VerifyOptions) :
    (∃ passed, (s.check v text options).answer = .ok passed) ↔
      (s.activation.isActive = true → s.fault? options.types text = none) := by
  constructor
  · rintro ⟨passed, h⟩ hactive
    by_contra hfault
    obtain ⟨e, he⟩ := Option.ne_none_iff_exists'.mp hfault
    rw [Session.check_of_fault? hactive he] at h
    cases h
  · intro h
    rcases verify_cases s v text options with ⟨-, hc⟩ | ⟨_, -, hc⟩ | ⟨e, hv, -⟩
    · exact ⟨true, hc⟩
    · exact ⟨false, hc⟩
    · by_cases hactive : s.activation.isActive = true
      · rw [Session.fault?_of_verify hactive hv] at h
        cases h hactive
      · rw [Session.verify, if_neg hactive] at hv
        cases hv

/-! ### Reports -/

section
variable {files : Files} {s : Session} {config : Config} {draws : Draws} {r : Report}

/-- What it takes for a document to be checked, and what is reported then. -/
theorem report_check_eq_ok {schema name : String} {pathRoot : Option String} :
    report files s config draws (.check schema name pathRoot) = .ok r ↔
      ∃ text, schemaText files schema = .ok text ∧ ∃ v, document files name = .ok v ∧
        ∃ passed, (s.check v text (verifyOptions config pathRoot)).answer = .ok passed ∧
          r = ⟨passed, [toString passed]⟩ := by
  simp only [report, bind_eq_ok, mapError_eq_ok, pure_eq_ok]

/-- **The two commands that check a document say the same of it.** -/
theorem report_agree (files : Files) (s : Session) (config : Config) (draws : Draws)
    (schema name : String) (pathRoot : Option String) :
    Agree (report files s config draws (.verify schema name pathRoot))
      (report files s config draws (.check schema name pathRoot)) := by
  simp only [report]
  cases schemaText files schema with
  | error failure => exact .failed failure
  | ok text =>
    cases document files name with
    | error failure => exact .failed failure
    | ok v =>
      simp only [bind, Except.bind]
      rcases verify_cases s v text (verifyOptions config pathRoot) with
        ⟨hv, hc⟩ | ⟨records, hfound, hc⟩ | ⟨e, hv, hc⟩
      · rw [hv, hc]
        exact .accepted
      · rw [hfound.answered, hc]
        exact .rejected hfound.ne_nil
      · rw [hv, hc]
        exact .failed (.schema e)

theorem Agree.exists_iff {x x' : Except Failure Report} (h : Agree x x') :
    (∃ r, x = .ok r) ↔ ∃ r, x' = .ok r := by
  cases h <;> simp

/-- A command that verifies a document reports `ok`, or the records that it finds. -/
theorem ok_or_finds_of_report {schema name : String} {pathRoot : Option String}
    (h : report files s config draws (.verify schema name pathRoot) = .ok r) :
    r = .line "ok" ∨ ∃ records,
      (Command.verify schema name pathRoot).Finds files s config records ∧
        r = ⟨false, records.map Record.text⟩ := by
  simp only [report, bind_eq_ok] at h
  obtain ⟨text, htext, v, hv, h⟩ := h
  rcases verify_cases s v text (verifyOptions config pathRoot) with
    ⟨hverify, -⟩ | ⟨records, hfound, -⟩ | ⟨e, hverify, -⟩
  · rw [hverify] at h
    exact .inl (pure_eq_ok.mp h)
  · rw [hfound.answered] at h
    exact .inr ⟨records, ⟨text, v, htext, hv, hfound⟩, pure_eq_ok.mp h⟩
  · rw [hverify] at h
    cases h

/-- Whoever has found records has something to print. -/
theorem Command.Finds.rejection_ne_nil {command : Command} {records : List Record}
    (h : command.Finds files s config records) : command.rejection records ≠ [] := by
  cases command with
  | verify schema name pathRoot =>
    obtain ⟨_, _, -, -, hfound⟩ := h
    exact fun hnil => hfound.ne_nil (List.map_eq_nil_iff.mp hnil)
  | check schema name pathRoot => exact List.cons_ne_nil _ _
  | _ => cases h

/-- **What is found is reported.** -/
theorem report_of_finds {command : Command} {records : List Record}
    (h : command.Finds files s config records) :
    report files s config draws command = .ok ⟨false, command.rejection records⟩ := by
  cases command with
  | verify schema name pathRoot =>
    obtain ⟨text, v, htext, hv, hfound⟩ := h
    simp only [report, htext, hv, bind, Except.bind, hfound.answered]
    rfl
  | check schema name pathRoot =>
    obtain ⟨text, v, htext, hv, hfound⟩ := h
    refine report_check_eq_ok.mpr ⟨text, htext, v, hv, false, ?_, rfl⟩
    rw [Session.check, hfound.answered]
  | _ => cases h

theorem report_shape_eq_ok {schema : String} {name : Option String} {includeOptional : Bool} :
    report files s config draws (.shape schema name includeOptional) = .ok r ↔
      ∃ text, schemaText files schema = .ok text ∧
        ∃ v, (name.map (document files)).getD (pure .null) = .ok v ∧
          ∃ shaped, (s.shape v text (shapeOptions config includeOptional) draws.path).answer =
            .ok shaped ∧ r = .line (Json.render shaped) := by
  cases name <;>
    simp only [report, bind_eq_ok, mapError_eq_ok, pure_eq_ok, Option.map_some, Option.map_none,
      Option.getD_some, Option.getD_none]

/-- **What a command reports**: a line at least, and only for records that it has found in its
document, that it does not count as passed. -/
theorem report_suits {command : Command} (h : report files s config draws command = .ok r) :
    r.lines ≠ [] ∧ (r.passed = false → ∃ records,
      command.Finds files s config records ∧ r.lines = command.rejection records) := by
  have hline : (∃ text, r = .line text) → r.lines ≠ [] ∧ (r.passed = false → ∃ records,
      command.Finds files s config records ∧ r.lines = command.rejection records) := by
    rintro ⟨text, rfl⟩
    exact ⟨List.cons_ne_nil _ _, fun h => by cases h⟩
  cases command with
  | verify schema name pathRoot =>
    obtain rfl | ⟨records, hfound, rfl⟩ := ok_or_finds_of_report h
    · exact hline ⟨"ok", rfl⟩
    · exact ⟨hfound.rejection_ne_nil, fun _ => ⟨records, hfound, rfl⟩⟩
  | check schema name pathRoot =>
    obtain ⟨text, htext, v, hv, passed, hcheck, rfl⟩ := report_check_eq_ok.mp h
    refine ⟨List.cons_ne_nil _ _, fun hpassed => ?_⟩
    obtain rfl : passed = false := hpassed
    obtain ⟨records, hfound⟩ := exists_finds_of_check hcheck
    exact ⟨records, ⟨text, v, htext, hv, hfound⟩, rfl⟩
  | shape schema name includeOptional =>
    obtain ⟨_, -, _, -, _, -, rfl⟩ := report_shape_eq_ok.mp h
    exact hline ⟨_, rfl⟩
  | infer name =>
    simp only [report, bind_eq_ok, pure_eq_ok] at h
    obtain ⟨_, -, rfl⟩ := h
    exact hline ⟨_, rfl⟩
  | flatten schema =>
    simp only [report, bind_eq_ok, pure_eq_ok] at h
    obtain ⟨_, -, _, -, rfl⟩ := h
    exact hline ⟨_, rfl⟩
  | typeShape schema =>
    simp only [report, bind_eq_ok, pure_eq_ok] at h
    obtain ⟨_, -, _, -, rfl⟩ := h
    exact hline ⟨_, rfl⟩
  | types => exact hline ⟨_, pure_eq_ok.mp h⟩

theorem exists_shape_iff (v : Value) (text : String) (options : ShapeOptions)
    (draws : Path → Nat) : (∃ shaped, (s.shape v text options draws).answer = .ok shaped) ↔
      ∃ schema, compileText text = .ok schema := by
  rw [Session.shape]
  cases compileText text <;> simp

/-- A document is checked exactly if the command finds what it needs. -/
theorem exists_check_report_iff {schema name : String} {pathRoot : Option String} :
    (∃ r, report files s config draws (.check schema name pathRoot) = .ok r) ↔
      (∃ text, schemaText files schema = .ok text ∧
        (s.activation.isActive = true → s.fault? config.typeDefs text = none)) ∧
      ∃ v, document files name = .ok v := by
  simp only [report_check_eq_ok]
  constructor
  · rintro ⟨_, text, htext, v, hv, passed, hpassed, -⟩
    exact ⟨⟨text, htext, (exists_check_iff s v text _).mp ⟨passed, hpassed⟩⟩, v, hv⟩
  · rintro ⟨⟨text, htext, htakes⟩, v, hv⟩
    obtain ⟨passed, hpassed⟩ :=
      (exists_check_iff s v text (verifyOptions config pathRoot)).mpr htakes
    exact ⟨_, text, htext, v, hv, passed, hpassed, rfl⟩

theorem exists_shape_report_iff {schema : String} {name : Option String}
    {includeOptional : Bool} :
    (∃ r, report files s config draws (.shape schema name includeOptional) = .ok r) ↔
      (∃ text, schemaText files schema = .ok text ∧ ∃ schema, compileText text = .ok schema) ∧
      ∀ file ∈ name, ∃ v, document files file = .ok v := by
  have hgiven : (∃ v, (name.map (document files)).getD (pure .null) = .ok v) ↔
      ∀ file ∈ name, ∃ v, document files file = .ok v := by
    cases name <;> simp [pure_eq_ok]
  simp only [report_shape_eq_ok, ← hgiven]
  constructor
  · rintro ⟨_, text, htext, v, hv, shaped, hshaped, -⟩
    exact ⟨⟨text, htext, (exists_shape_iff v text _ _).mp ⟨shaped, hshaped⟩⟩, v, hv⟩
  · rintro ⟨⟨text, htext, hcompiles⟩, v, hv⟩
    obtain ⟨shaped, hshaped⟩ := (exists_shape_iff v text
      (shapeOptions config includeOptional) draws.path).mpr hcompiles
    exact ⟨_, text, htext, v, hv, shaped, hshaped, rfl⟩

/-- **A command reports exactly if it finds what it needs.** -/
theorem exists_report_iff {command : Command} :
    (∃ r, report files s config draws command = .ok r) ↔
      (∀ arg ∈ command.schema?, ∃ text, schemaText files arg = .ok text ∧
        command.Takes s config.typeDefs text) ∧
      ∀ name ∈ command.document?, ∃ v, document files name = .ok v := by
  cases command with
  | verify schema name pathRoot =>
    rw [(report_agree files s config draws schema name pathRoot).exists_iff,
      exists_check_report_iff]
    simp [Command.schema?, Command.document?, Command.Takes]
  | check schema name pathRoot =>
    rw [exists_check_report_iff]
    simp [Command.schema?, Command.document?, Command.Takes]
  | shape schema name includeOptional =>
    rw [exists_shape_report_iff]
    simp [Command.schema?, Command.document?, Command.Takes]
  | infer name =>
    simp only [report, bind_eq_ok, pure_eq_ok]
    simp [Command.schema?, Command.document?]
  | flatten schema =>
    simp only [report, bind_eq_ok, mapError_eq_ok, pure_eq_ok]
    simp [Command.schema?, Command.document?, Command.Takes]
  | typeShape schema =>
    simp only [report, bind_eq_ok, mapError_eq_ok, pure_eq_ok]
    simp [Command.schema?, Command.document?, Command.Takes]
  | types => simp [report, pure_eq_ok, Command.schema?, Command.document?]

end

/-- A command line is carried out exactly if the command finds what it needs, the
configuration included. -/
theorem exists_execute_iff (files : Files) (draws : Draws) (i : Invocation) :
    (∃ r, execute files draws i = .ok r) ↔ ∃ config, Served files i config := by
  constructor
  · rintro ⟨r, h⟩
    obtain ⟨config, hconfig, hreport⟩ := bind_eq_ok.mp h
    obtain ⟨hschema, hdocument⟩ := exists_report_iff.mp ⟨r, hreport⟩
    exact ⟨config, hconfig, hschema, hdocument⟩
  · rintro ⟨config, hconfig, hschema, hdocument⟩
    obtain ⟨r, hreport⟩ := exists_report_iff.mpr ⟨hschema, hdocument⟩
    exact ⟨r, bind_eq_ok.mpr ⟨config, hconfig, hreport⟩⟩

/-- What a command line finds, it reports. -/
theorem execute_of_finds {files : Files} {i : Invocation} {records : List Record}
    (h : i.Finds files records) (draws : Draws) :
    execute files draws i = .ok ⟨false, i.command.rejection records⟩ := by
  obtain ⟨config, hconfig, hfound⟩ := h
  rw [execute, hconfig]
  exact report_of_finds hfound

/-! ### Runs -/

section
variable {files : Files} {draws : Draws} {args : List String} {i : Invocation}

theorem run_eq_outcome (h : read args = .ok i) :
    run files draws args = outcome (execute files draws i) := by
  rw [run, h]
  show (match execute files draws i with
    | .ok report => _
    | .error failure => _) = outcome (execute files draws i)
  cases execute files draws i <;> rfl

/-- What is printed is not empty, if there is a line. -/
theorem printed_ne_empty {lines : List String} (h : lines ≠ []) : printed lines ≠ "" := by
  obtain ⟨line, rest, rfl⟩ := List.exists_cons_of_ne_nil h
  intro he
  have hlength := congrArg (fun text => text.toList.length) he
  simp [printed, String.join_cons] at hlength

/-- What a command leaves behind tells how it has ended. -/
theorem Ending.Leaves.ending_eq {o : Outcome} {ending : Ending}
    (h : ending.Leaves files i o) : o.ending = ending := by
  rw [Outcome.ending]
  cases ending with
  | passed =>
    obtain ⟨hexit, -⟩ := h
    rw [if_pos hexit]
  | rejected =>
    obtain ⟨hexit, herrors, -⟩ := h
    rw [if_neg (by omega), if_pos herrors]
  | failed =>
    obtain ⟨hexit, ⟨failure, herrors⟩, -⟩ := h
    rw [if_neg (by omega), herrors, if_neg (List.cons_ne_nil _ _)]

/-- It has not ended in any other way. -/
theorem Ending.Leaves.existsUnique {o : Outcome} {ending : Ending}
    (h : ending.Leaves files i o) : ∃! ending : Ending, ending.Leaves files i o :=
  ⟨ending, h, fun _ h' => h'.ending_eq.symm.trans h.ending_eq⟩

/-- **A command that is carried out passes, or rejects its document.** -/
theorem leaves_of_report {r : Report} (h : read args = .ok i)
    (hr : execute files draws i = .ok r) :
    (if r.passed then Ending.passed else .rejected).Leaves files i (run files draws args) := by
  obtain ⟨config, hconfig, hreport⟩ := bind_eq_ok.mp hr
  obtain ⟨hlines, hrejects⟩ := report_suits hreport
  rw [run_eq_outcome h, hr, outcome]
  cases hpassed : r.passed with
  | true => exact ⟨rfl, rfl, printed_ne_empty hlines⟩
  | false =>
    obtain ⟨records, hfound, hrejection⟩ := hrejects hpassed
    exact ⟨rfl, rfl, records, ⟨config, hconfig, hfound⟩, congrArg printed hrejection⟩

/-- A command that fails has printed nothing. -/
theorem leaves_of_failure {failure : Failure} (h : read args = .ok i)
    (hr : execute files draws i = .error failure) :
    Ending.failed.Leaves files i (run files draws args) := by
  rw [run_eq_outcome h, hr]
  exact ⟨rfl, ⟨failure, rfl⟩, rfl⟩

/-- **A command ends in one of three ways.**  It passes and has printed something; it
rejects a document, which only two commands do, and has printed all records that verifying
the document finds, or `false`; or it fails, logs why, and has printed nothing.  It ends in
one of these ways only.  It fails exactly if something is missing that it needs, and it
rejects its document exactly if there are records to find. -/
theorem run_ends_in_one_way (files : Files) (draws : Draws) (h : read args = .ok i) :
    (∃! ending : Ending, ending.Leaves files i (run files draws args)) ∧
      (Ending.failed.Leaves files i (run files draws args) ↔
        ¬ ∃ config, Served files i config) ∧
      (Ending.rejected.Leaves files i (run files draws args) ↔
        ∃ records, i.Finds files records) := by
  rw [← exists_execute_iff files draws i]
  refine ⟨?_, ?_, fun ⟨_, _, records, hfound, _⟩ => ⟨records, hfound⟩, ?_⟩
  · cases hr : execute files draws i with
    | ok r => exact (leaves_of_report h hr).existsUnique
    | error failure => exact (leaves_of_failure h hr).existsUnique
  · cases hr : execute files draws i with
    | ok r =>
      refine iff_of_false (fun hfailed => ?_) fun hnot => hnot ⟨r, rfl⟩
      have hne := hfailed.ending_eq.symm.trans (leaves_of_report h hr).ending_eq
      cases hpassed : r.passed <;> simp [hpassed] at hne
    | error failure =>
      exact iff_of_true (leaves_of_failure h hr) fun ⟨r, hr⟩ => by cases hr
  · rintro ⟨records, hfound⟩
    exact leaves_of_report h (execute_of_finds hfound draws)

end

/-- A configuration, a schema, and a document of tones and a size. -/
def toneFiles : Files := fun path =>
  [("paint.yaml", "environment: development\ntypes:\n  tone: [warm, cold]\n"),
    ("paint", "\x7btones:[tone],size:i\x7d"),
    ("tones.json", "\x7b\"size\": \"big\", \"tones\": [\"warm\", \"odd\", null]\x7d")].lookup
      path

/-- What is wrong with the document, which has a tone that is none, a tone that is missing,
and a text for its size. -/
def toneRecords : List Record :=
  [⟨⟨"p", [.field "tones", .item 1]⟩, .validationFailed⟩,
    ⟨⟨"p", [.field "tones", .item 2]⟩, .required⟩, ⟨⟨"p", [.field "size"]⟩, .validationFailed⟩]

/-- A document that is rejected with three records, by the types of a configuration. -/
theorem run_ends_in_one_way_tones :
    let args := ["--config", "paint.yaml", "verify", "@paint", "tones.json", "--path-root=p"]
    let i : Invocation := ⟨some "paint.yaml", 0, .verify "@paint" "tones.json" (some "p")⟩
    let o := run toneFiles ⟨fun _ => 0, fun _ => 0⟩ args
    o = { exit := 1, stdout := printed (toneRecords.map Record.text) } ∧
      i.Finds toneFiles toneRecords ∧ Ending.rejected.Leaves toneFiles i o ∧
      (∃! ending : Ending, ending.Leaves toneFiles i o) ∧ ∃ config, Served toneFiles i config := by
  intro args i o
  have ho : o = { exit := 1, stdout := printed (toneRecords.map Record.text) } := by
    decide +kernel
  have hread : read args = .ok i := by decide +kernel
  have hfound : i.Finds toneFiles toneRecords := by
    let schema : Arena := ⟨[.scalar false "tone" none, .array false [0], .scalar false "i" none,
      .object false [("tones", 1), ("size", 2)] none], 3⟩
    refine ⟨{ environment := some "development", types := [("tone", [.str "warm", .str "cold"])] },
      ?_, "\x7btones:[tone],size:i\x7d",
      .obj [("size", .str "big"), ("tones", .arr [.str "warm", .str "odd", .null])],
      ?_, ?_, List.cons_ne_nil _ _, ⟨schema, ?_, ?_⟩, ?_⟩ <;> decide +kernel
  obtain ⟨hone, hfailed, hrejected⟩ :=
    run_ends_in_one_way toneFiles ⟨fun _ => 0, fun _ => 0⟩ hread
  refine ⟨ho, hfound, hrejected.mpr ⟨_, hfound⟩, hone, ?_⟩
  by_contra hnot
  obtain ⟨-, ⟨failure, herrors⟩, -⟩ : Ending.failed.Leaves toneFiles i o := hfailed.mpr hnot
  rw [ho] at herrors
  exact absurd herrors (List.cons_ne_nil _ _).symm

end CommandLine

end TerseSchema
