import NameResolution.Environment.InPlace
import NameResolution.Proofs.Environment.Index
import NameResolution.Proofs.OrderedMap.Entries

/-!
# Refused additions

An addition in place is refused in two ways, and between the steps that it takes the environment may
already differ from the one it started with. A refusal leaves the environment as it was all the
same, down to the order of every map, and an addition that is not refused leaves the one that
`Environment.add` gives.

## Main statements

* `Environment.attempt_eq` — the outcome and the environment afterwards, from `Environment.add`.
* `Environment.add_eq_relativeName_iff`, `Environment.add_eq_kindMismatch_iff` — when an addition is
  refused, and with which error.
* `Environment.attempt_atomic` — refusals of additions in place.
* `Environment.foldl_attempt` — a run of attempts, whatever is refused of it.
-/

namespace NameResolution

/-! ## Changes one after the other -/

namespace EnvironmentM

variable {α β : Type} {change : EnvironmentM α} {next : α → EnvironmentM β}
  {env env' : Environment}

theorem run_bind_of_ok {result : α} (accepted : change.run.run env = (.ok result, env')) :
    (change >>= next).run.run env = (next result).run.run env' := by
  rw [ExceptT.run_bind, StateT.run_bind, accepted]
  rfl

theorem run_bind_of_error {refused : EnvironmentError}
    (stopped : change.run.run env = (.error refused, env')) :
    (change >>= next).run.run env = (.error refused, env') := by
  rw [ExceptT.run_bind, StateT.run_bind, stopped]
  rfl

theorem run_modify_bind (f : Environment → Environment) (next : EnvironmentM β)
    (env : Environment) : (do modify f; next).run.run env = next.run.run (f env) := rfl

theorem run_get_bind (next : Environment → EnvironmentM β) (env : Environment) :
    (do next (← get)).run.run env = (next env).run.run env := rfl

end EnvironmentM

namespace Environment

open EnvironmentM

variable {env : Environment} {decl : Declaration}

/-! ## The steps -/

theorem run_forM_requireAbsolute (names : List QualifiedName) (env : Environment) :
    (names.forM requireAbsolute).run.run env =
      (match names.find? (!·.isAbsolute) with
        | some name => .error (.relativeName name)
        | none => .ok (), env) := by
  induction names with
  | nil => rfl
  | cons name names ih =>
    cases absolute : name.isAbsolute with
    | false =>
      have stopped : (requireAbsolute name).run.run env = (.error (.relativeName name), env) := by
        rw [requireAbsolute, absolute]
        rfl
      rw [List.forM, run_bind_of_error stopped, List.find?_cons, absolute]
      rfl
    | true =>
      have passed : (requireAbsolute name).run.run env = (.ok (), env) := by
        rw [requireAbsolute, absolute]
        rfl
      rw [List.forM, run_bind_of_ok passed, ih, List.find?_cons, absolute]
      rfl

/-- The entry is in place after it was opened, whether or not it was there before. -/
theorem run_openEntry {name : QualifiedName} {kind : ModuleKind} {entry : ModuleEntry}
    (found : (env.module? name).getD (.opened name kind) = entry) :
    (openEntry name kind).run.run env =
      (if entry.kind = kind then .ok entry else .error (.kindMismatch name entry.kind kind),
        { env with modules := env.modules.insertIfNew name (.opened name kind) }) := by
  have placed : ({ env with modules := env.modules.insertIfNew name (.opened name kind) } :
      Environment).module? name = some entry :=
    (OrderedMap.find?_insertIfNew ..).trans ((if_pos rfl).trans (congrArg some found))
  unfold openEntry
  rw [run_modify_bind, run_get_bind]
  simp only [placed, Option.getD_some]
  split <;> rfl

/-- A declaration is stored in place as it is stored into a copy. One that is refused finds an entry
of its name, so that none was put in place for it. -/
theorem run_storeInPlace (env : Environment) (decl : Declaration) :
    (storeInPlace decl).run.run env =
      match env.store decl with
      | .ok env' => (.ok (), env')
      | .error refused => (.error refused, env) := by
  cases decl with
  | ofModule d =>
    obtain ⟨entry, found⟩ :
        ∃ entry, (env.module? d.name).getD (.opened d.name d.head.kind) = entry := ⟨_, rfl⟩
    have step := run_openEntry found
    simp only [store, addModule, found]
    by_cases same : entry.kind = d.head.kind
    · rw [if_pos same] at step ⊢
      rw [storeInPlace, run_bind_of_ok step,
        ← OrderedMap.insert_insertIfNew env.modules d.name (.opened d.name d.head.kind)]
      rfl
    · rw [if_neg same] at step ⊢
      rw [storeInPlace, run_bind_of_error step]
      cases known : env.module? d.name with
      | none =>
        rw [known] at found
        exact absurd (found ▸ rfl) same
      | some entry => rw [OrderedMap.insertIfNew_of_find? known]
  | ofConstant d =>
    have opened : ({ env with constants := env.constants.insertIfNew d.name [] } :
        Environment).constantDecls d.name = env.constantDecls d.name := by
      simp [constantDecls, OrderedMap.find?_insertIfNew]
    rw [storeInPlace, run_modify_bind, run_modify_bind, opened, OrderedMap.insert_insertIfNew]
    rfl
  | ofAlias | ofInterface | ofTypeAlias => rfl

/-- The outcome of an addition in place is that of an addition to a copy. The environment afterwards
is the extended copy, and the one before when the addition is refused. -/
theorem attempt_eq (env : Environment) (decl : Declaration) :
    env.attempt decl =
      match env.add decl with
      | .ok env' => (.ok (), env')
      | .error refused => (.error refused, env) := by
  have checked := run_forM_requireAbsolute decl.mentioned env
  unfold attempt addInPlace add
  cases relative : decl.mentioned.find? (!·.isAbsolute) with
  | some name =>
    rw [relative] at checked
    rw [run_bind_of_error checked]
  | none =>
    rw [relative] at checked
    rw [run_bind_of_ok checked]
    have stored := run_storeInPlace env decl
    cases tried : env.store decl with
    | ok env' =>
      rw [tried] at stored
      rw [run_bind_of_ok stored]
      rfl
    | error refused =>
      rw [tried] at stored
      rw [run_bind_of_error stored]
      rfl

/-! ## Refusals -/

/-- Only a class or module is refused when its names are absolute, for an entry of the other
kind. -/
theorem store_eq_error_iff {refused : EnvironmentError} :
    env.store decl = .error refused ↔ ∃ existing added,
      refused = .kindMismatch decl.name existing added ∧ decl.kind? = some added ∧
        (env.module? decl.name).map ModuleEntry.kind = some existing ∧ existing ≠ added := by
  cases decl with
  | ofModule d =>
    simp only [store, addModule, Declaration.name, Declaration.kind?]
    cases env.module? d.name with
    | none => simp [ModuleEntry.opened]
    | some entry => by_cases same : entry.kind = d.head.kind <;> simp [same, eq_comm]
  | ofConstant | ofAlias | ofInterface | ofTypeAlias => simp [store, Declaration.kind?]

theorem add_eq_error_iff {refused : EnvironmentError} :
    env.add decl = .error refused ↔
      (∃ name, decl.mentioned.find? (!·.isAbsolute) = some name ∧ refused = .relativeName name) ∨
        decl.mentioned.find? (!·.isAbsolute) = none ∧ env.store decl = .error refused := by
  unfold add
  cases decl.mentioned.find? (!·.isAbsolute) with
  | some name => simp [eq_comm]
  | none => cases env.store decl <;> simp [Except.map]

/-- The first name that is not absolute is reported. -/
theorem add_eq_relativeName_iff {name : QualifiedName} :
    env.add decl = .error (.relativeName name) ↔ ∃ before after,
      decl.mentioned = before ++ name :: after ∧ (∀ earlier ∈ before, earlier.isAbsolute) ∧
        ¬name.isAbsolute := by
  have first : env.add decl = .error (.relativeName name) ↔
      decl.mentioned.find? (!·.isAbsolute) = some name := by
    simp [add_eq_error_iff, store_eq_error_iff]
  rw [first, List.find?_eq_some_iff_append]
  constructor
  · rintro ⟨relative, before, after, split, absolute⟩
    exact ⟨before, after, split, by simpa using absolute, by simpa using relative⟩
  · rintro ⟨before, after, split, absolute, relative⟩
    exact ⟨by simpa using relative, before, after, split, by simpa using absolute⟩

/-- A mismatch of kinds is reported when all names are absolute. -/
theorem add_eq_kindMismatch_iff {name : QualifiedName} {existing added : ModuleKind} :
    env.add decl = .error (.kindMismatch name existing added) ↔
      (∀ mentioned ∈ decl.mentioned, mentioned.isAbsolute) ∧ decl.name = name ∧
        decl.kind? = some added ∧ (env.module? decl.name).map ModuleEntry.kind = some existing ∧
        existing ≠ added := by
  have absolute : decl.mentioned.find? (!·.isAbsolute) = none ↔
      ∀ mentioned ∈ decl.mentioned, mentioned.isAbsolute := by simp
  have reported : env.add decl = .error (.kindMismatch name existing added) ↔
      decl.mentioned.find? (!·.isAbsolute) = none ∧
        env.store decl = .error (.kindMismatch name existing added) := by
    simp [add_eq_error_iff]
  rw [reported, absolute, store_eq_error_iff]
  refine and_congr_right fun _ => ?_
  constructor
  · rintro ⟨existing, added, same, mismatch⟩
    cases same
    exact ⟨rfl, mismatch⟩
  · rintro ⟨rfl, mismatch⟩
    exact ⟨existing, added, rfl, mismatch⟩

/-- An addition in place that is refused leaves the environment exactly as it was, although an entry
may be put in place before the kinds are compared. It is refused for the first name that is not
absolute, in the order of the declared name, the superclass or the self types and the mixins, or the
target. If all names are absolute, it is refused exactly when a class or module is to be opened as
the other kind. An addition to a copy has the same outcome and the same environment. -/
theorem attempt_atomic (env : Environment) (decl : Declaration) :
    (∀ refused, (env.attempt decl).1 = .error refused → (env.attempt decl).2 = env) ∧
    (∀ name, (env.attempt decl).1 = .error (.relativeName name) ↔ ∃ before after,
      decl.mentioned = before ++ name :: after ∧ (∀ earlier ∈ before, earlier.isAbsolute) ∧
        ¬name.isAbsolute) ∧
    (∀ name existing added,
      (env.attempt decl).1 = .error (.kindMismatch name existing added) ↔
        (∀ mentioned ∈ decl.mentioned, mentioned.isAbsolute) ∧ decl.name = name ∧
          decl.kind? = some added ∧ (env.module? decl.name).map ModuleEntry.kind = some existing ∧
          existing ≠ added) ∧
    env.add decl = (env.attempt decl).1.map fun _ => (env.attempt decl).2 := by
  have outcome (refused : EnvironmentError) :
      (env.attempt decl).1 = .error refused ↔ env.add decl = .error refused := by
    rw [attempt_eq]
    cases env.add decl <;> simp
  refine ⟨fun refused stopped => ?_, fun name => ?_, fun name existing added => ?_, ?_⟩
  · rw [attempt_eq, (outcome refused).1 stopped]
  · rw [outcome, add_eq_relativeName_iff]
  · rw [outcome, add_eq_kindMismatch_iff]
  · rw [attempt_eq]
    cases env.add decl <;> rfl

/-- A class is not reopened as a module. With a relative self type and a relative mixin in the same
declaration, the self type is what is reported. -/
theorem attempt_atomic_entangled :
    let a := Namespace.root.member "A"
    let relative (last : String) : QualifiedName := ⟨⟨false, []⟩, last⟩
    let opened : Declaration := .ofModule ⟨a, .ofModule [], [], none⟩
    let misnamed : Declaration :=
      .ofModule ⟨a, .ofModule [a, relative "T"], [⟨.included, relative "U"⟩], none⟩
    (entangled.attempt opened).1 = .error (.kindMismatch a .classKind .moduleKind) ∧
      (entangled.attempt opened).2 = entangled ∧
      (entangled.attempt misnamed).1 = .error (.relativeName (relative "T")) ∧
      (entangled.attempt misnamed).2 = entangled := by
  intro a relative opened misnamed
  obtain ⟨unchanged, -, mismatch, -⟩ := attempt_atomic entangled opened
  obtain ⟨unchanged', named, -⟩ := attempt_atomic entangled misnamed
  have stopped := (mismatch a .classKind .moduleKind).2
    ⟨by decide +kernel, rfl, rfl, by decide +kernel, by decide⟩
  have stopped' := (named (relative "T")).2
    ⟨[a, a], [relative "U"], by decide +kernel, by decide +kernel, by decide +kernel⟩
  exact ⟨stopped, unchanged _ stopped, stopped', unchanged' _ stopped'⟩

/-! ## Runs of attempts -/

/-- What is left after attempts in place is what is left when each declaration is added to a copy
that is dropped in case of a refusal. -/
theorem foldl_attempt (env : Environment) (decls : List Declaration) :
    decls.foldl (fun env decl => (env.attempt decl).2) env = env.tryAddAll decls := by
  have step (env : Environment) (decl : Declaration) : (env.attempt decl).2 = env.tryAdd decl := by
    rw [attempt_eq, tryAdd]
    cases env.add decl <;> rfl
  simp only [step]
  rfl

end Environment

end NameResolution
