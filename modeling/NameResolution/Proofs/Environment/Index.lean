import NameResolution.Proofs.Environment.Stored
import NameResolution.Proofs.Lists

/-!
# The indexes of an environment

A caller may try to add any declarations, one after the other, and go on after a refusal. What a
refused declaration says is nowhere stored, so the environment is the one of the declarations that
were accepted, and every index of it tells of exactly those.

## Main definitions

* `Environment.tryAddAll` — the environment after some attempts to add a declaration.
* `Environment.accepted` — the declarations that were not refused.
* `Environment.names` — the names under which anything is stored.
* `Stored.Fits` — what is stored under a name carries that name and mentions absolute names only.
* `Environment.Exact` — the indexes tell of given declarations and of nothing else.

## Main statements

* `Environment.ofDeclarations_accepted` — refused declarations leave no trace.
* `Environment.exact_tryAddAll` — the indexes after any attempts.
-/

namespace NameResolution

namespace Environment

/-! ## Attempts -/

/-- The environment after an attempt to add a declaration. One that is refused changes nothing. -/
def tryAdd (env : Environment) (decl : Declaration) : Environment :=
  (env.add decl).toOption.getD env

/-- The environment after attempts to add the declarations, one after the other. -/
def tryAddAll (env : Environment) (decls : List Declaration) : Environment :=
  decls.foldl tryAdd env

/-- The declarations that are accepted when they are added one after the other. -/
def accepted (env : Environment) : List Declaration → List Declaration
  | [] => []
  | decl :: decls =>
    match env.add decl with
    | .ok env' => decl :: env'.accepted decls
    | .error _ => env.accepted decls

theorem foldlM_add_accepted (env : Environment) (decls : List Declaration) :
    (env.accepted decls).foldlM add env = .ok (env.tryAddAll decls) := by
  induction decls generalizing env with
  | nil => rfl
  | cons decl decls ih =>
    rw [accepted, tryAddAll, List.foldl_cons, tryAdd]
    cases tried : env.add decl with
    | ok env' =>
      rw [List.foldlM_cons, tried]
      exact ih env'
    | error refused => exact ih env

/-- The declarations that were not refused build the environment alone. -/
theorem ofDeclarations_accepted (decls : List Declaration) :
    ofDeclarations (accepted ∅ decls) = .ok (tryAddAll ∅ decls) := foldlM_add_accepted ∅ decls

/-! ## Names -/

/-- The names under which anything is stored. -/
def names (env : Environment) : List QualifiedName :=
  env.modules.keys ++ env.aliases.keys ++ env.constants.keys ++ env.interfaces.keys ++
    env.typeAliases.keys

theorem mem_names_accept {env : Environment} {decl : Declaration} {name : QualifiedName} :
    name ∈ (env.accept decl).names ↔ name ∈ env.names ∨ decl.name = name := by
  simp only [names, modules_accept, aliases_accept, constants_accept, interfaces_accept,
    typeAliases_accept, List.mem_append]
  cases decl <;> grind [OrderedMap.mem_keys_insert, Declaration.name]

namespace Built

variable {decls : List Declaration} {env : Environment}

theorem mem_names_iff (built : Built decls env) {name : QualifiedName} :
    name ∈ env.names ↔ ∃ decl ∈ decls, decl.name = name := by
  induction built with
  | empty => exact iff_of_false nofun fun ⟨_, mem, _⟩ => nomatch mem
  | add built added ih =>
    rw [eq_accept_of_add_eq_ok added, mem_names_accept, ih]
    simp [or_and_right, exists_or]

theorem isAbsolute_of_mem (built : Built decls env) {decl : Declaration} (mem : decl ∈ decls)
    {name : QualifiedName} (mentioned : name ∈ decl.mentioned) : name.isAbsolute := by
  induction built with
  | empty => cases mem
  | add built added ih =>
    rcases List.mem_append.1 mem with old | new
    · exact ih old
    · obtain rfl := List.mem_singleton.1 new
      exact (add_eq_ok_iff.1 added).1 name mentioned

/-- The members are the names with a type, in the order of their first declaration. -/
theorem members_eq (built : Built decls env) :
    env.members = ((decls.filter (·.givenType?.isSome)).map Declaration.name).eraseDups := by
  induction built with
  | empty => rfl
  | @add decls env decl env' built added ih =>
    rw [eq_accept_of_add_eq_ok added, members_accept, List.filter_append, List.map_append]
    by_cases typed : decl.givenType?.isSome
    · have last : ([decl].filter (·.givenType?.isSome)).map Declaration.name = [decl.name] := by
        simp [typed]
      rw [last, eraseDups_append_singleton, ← ih]
      simp [typed, ite_not]
    · simp [typed, ih]

/-- A constant that is stored has a declaration. -/
theorem ne_nil_of_find?_constants (built : Built decls env) {name : QualifiedName}
    {constants : List ConstantDecl} (found : env.constants.find? name = some constants) :
    constants ≠ [] := by
  induction built with
  | empty => cases found
  | @add decls env decl env' built added ih =>
    rw [eq_accept_of_add_eq_ok added, constants_accept] at found
    cases decl with
    | ofConstant d =>
      simp only [OrderedMap.find?_insert] at found
      split at found
      · obtain rfl := Option.some.inj found
        simp
      · exact ih found
    | ofModule | ofAlias | ofInterface | ofTypeAlias => exact ih found

end Built

end Environment

/-! ## What is stored under a name -/

theorem ModuleEntry.mem_ancestorNames_merge {entry : ModuleEntry} {decl : ModuleDecl}
    {name : QualifiedName} (mem : name ∈ (entry.merge decl).ancestorNames) :
    name ∈ entry.ancestorNames ∨ name ∈ (Declaration.ofModule decl).references := by
  have inherited (mem : name ∈ (entry.superclass? <|> decl.head.superclass?).toList) :
      name ∈ entry.superclass?.toList ∨ name ∈ decl.head.references := by
    cases known : entry.superclass? with
    | some superclass => exact .inl (by simpa [known] using mem)
    | none =>
      cases stated : decl.head with
      | ofClass =>
        rw [known, stated] at mem
        exact .inr mem
      | ofModule => simp [known, stated, ModuleHead.superclass?] at mem
  simp only [ancestorNames, merge, List.mem_append, List.map_append] at mem
  simp only [ancestorNames, Declaration.references, List.mem_append]
  grind

namespace Stored

/-- All that is stored carries the name that it is stored under, and the superclass, the mixins and
the target that it mentions are absolute. -/
structure Fits (stored : Stored) (name : QualifiedName) : Prop where
  module : ∀ entry ∈ stored.module?,
    entry.name = name ∧ ∀ ancestor ∈ entry.ancestorNames, ancestor.isAbsolute
  ofAlias : ∀ decl ∈ stored.alias?, decl.name = name ∧ decl.target.isAbsolute
  constant : ∀ decl ∈ stored.constants, decl.name = name
  interface : ∀ decl ∈ stored.interface?, decl.name = name
  typeAlias : ∀ decl ∈ stored.typeAlias?, decl.name = name

theorem Fits.nothing (name : QualifiedName) : Stored.nothing.Fits name :=
  ⟨nofun, nofun, nofun, nofun, nofun⟩

theorem Fits.add {stored : Stored} {decl : Declaration} (fits : stored.Fits decl.name)
    (absolute : ∀ name ∈ decl.references, name.isAbsolute) :
    (stored.add decl).Fits decl.name := by
  cases decl with
  | ofModule d =>
    refine { fits with module := ?_ }
    rintro _ ⟨⟩
    -- An entry that is opened here mentions nothing yet.
    have before : (stored.module?.getD (.opened d.name d.head.kind)).name = d.name ∧
        ∀ n ∈ (stored.module?.getD (.opened d.name d.head.kind)).ancestorNames, n.isAbsolute := by
      cases known : stored.module? with
      | none => exact ⟨rfl, nofun⟩
      | some entry => exact fits.module entry known
    refine ⟨before.1, fun ancestor mem => ?_⟩
    rcases ModuleEntry.mem_ancestorNames_merge mem with old | new
    · exact before.2 ancestor old
    · exact absolute ancestor new
  | ofConstant d =>
    refine { fits with constant := fun decl mem => ?_ }
    rcases List.mem_append.1 mem with old | new
    · exact fits.constant decl old
    · rw [List.mem_singleton.1 new]
      rfl
  | ofAlias d =>
    refine { fits with ofAlias := ?_ }
    rintro _ ⟨⟩
    exact ⟨rfl, absolute d.target (.head _)⟩
  | ofInterface d => exact { fits with interface := fun _ found => Option.some.inj found ▸ rfl }
  | ofTypeAlias d => exact { fits with typeAlias := fun _ found => Option.some.inj found ▸ rfl }

end Stored

namespace Environment

theorem Built.fits {decls : List Declaration} {env : Environment} (built : Built decls env)
    (name : QualifiedName) : (env.stored name).Fits name := by
  induction built with
  | empty => exact .nothing name
  | @add decls env decl env' built added ih =>
    obtain ⟨absolute, -, rfl⟩ := add_eq_ok_iff.1 added
    rw [stored_accept]
    split
    · next same =>
      subst same
      exact ih.add fun name mem => absolute name (.tail _ mem)
    · exact ih

/-! ## Exactness -/

/-- The indexes of the environment tell of the declarations, and of nothing else. -/
structure Exact (env : Environment) (decls : List Declaration) : Prop where
  /-- A namespace lists its classes, modules, aliases and constants by first declaration. -/
  membersOf_eq : ∀ ns, env.membersOf ns =
    ((decls.filter (·.givenType?.isSome)).map Declaration.name).eraseDups.filter (·.container = ns)
  nodup_membersOf : ∀ ns, (env.membersOf ns).Nodup
  /-- The pool has the last components of the declared names of all sorts. -/
  pool : ∀ simple, (env.pool.find? simple).isSome ↔ ∃ decl ∈ decls, decl.name.last = simple
  names : ∀ name, name ∈ env.names ↔ ∃ decl ∈ decls, decl.name = name
  absolute : ∀ name, name ∈ env.names ∨ name ∈ env.members → name.isAbsolute
  fits : ∀ name, (env.stored name).Fits name
  constants : ∀ name constants, env.constants.find? name = some constants → constants ≠ []

theorem Built.exact {decls : List Declaration} {env : Environment} (built : Built decls env) :
    env.Exact decls where
  membersOf_eq _ := congrArg (List.filter _) built.members_eq
  nodup_membersOf _ := built.nodup_members.filter _
  pool _ := built.isSome_find?_pool_iff
  names _ := built.mem_names_iff
  absolute name stored := by
    have declared : ∃ decl ∈ decls, decl.name = name := by
      rcases stored with key | member
      · exact built.mem_names_iff.1 key
      · obtain ⟨_, decl, mem, named, _⟩ := built.mem_members_iff.1 member
        exact ⟨decl, mem, named⟩
    obtain ⟨decl, mem, rfl⟩ := declared
    exact built.isAbsolute_of_mem mem (.head _)
  fits := built.fits
  constants _ _ := built.ne_nil_of_find?_constants

/-- Whatever was tried on an empty environment, and whatever of it was refused, the indexes tell of
the accepted declarations alone. The next declaration is accepted exactly when it joins them. -/
theorem exact_tryAddAll (decls : List Declaration) :
    (tryAddAll ∅ decls).Exact (accepted ∅ decls) ∧
      ∀ decl, (∃ env, (tryAddAll ∅ decls).add decl = .ok env) ↔ Joins decl (accepted ∅ decls) := by
  have built := Built.of_ofDeclarations (ofDeclarations_accepted decls)
  exact ⟨built.exact, fun _ => built.exists_add_iff⟩

/-- A class is not reopened as a module, and what is declared after the attempt still counts. -/
example :
    let a := Namespace.root.member "A"
    let opened : Declaration := .ofModule ⟨a, .ofClass none, [], none⟩
    let reopened : Declaration := .ofModule ⟨a, .ofModule [], [], none⟩
    let constant : Declaration := .ofConstant ⟨a.toNamespace.member "X", .singleton a, none⟩
    accepted ∅ [opened, reopened, constant] = [opened, constant] := rfl

end Environment

end NameResolution
