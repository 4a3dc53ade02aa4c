import Mathlib.Data.List.Induction
import NameResolution.Constant.Table
import NameResolution.OrderedMap.Lemmas

/-!
# What an environment holds

An environment is built by adding declarations one after the other. What it holds can then be said
of those declarations alone, whatever maps and indexes it is stored in.

## Main definitions

* `Environment.Built` — the environments that declarations add up to.
* `Declaration.givenType?` — the type that a declaration gives to its name as a constant.
* `Declares` — a list of declarations gives a type to a name.

## Main statements

* `Environment.Built.mem_members_iff` — the members are the names that some declaration gives a
  type.
* `Environment.Built.mem_names_pool_iff` — the pool has the last components of declared names.
* `Environment.Built.mem_types_iff` — the constants of a name have the types that the declarations
  give it.
-/

namespace NameResolution

/-! ## Declarations -/

/-- The type that the declaration gives to its name as a constant. Interfaces and type aliases give
none. -/
def Declaration.givenType? : Declaration → Option TypeExpr
  | .ofModule decl => some (.singleton decl.name)
  | .ofAlias decl => some (.singleton decl.name)
  | .ofConstant decl => some decl.type
  | .ofInterface _ | .ofTypeAlias _ => none

/-- The kind that the declaration opens its name with. -/
def Declaration.kind? : Declaration → Option ModuleKind
  | .ofModule decl => some decl.head.kind
  | .ofConstant _ | .ofAlias _ | .ofInterface _ | .ofTypeAlias _ => none

/-- Some declaration among `decls` gives `name` the type `type`. -/
def Declares (decls : List Declaration) (name : QualifiedName) (type : TypeExpr) : Prop :=
  ∃ decl ∈ decls, decl.name = name ∧ decl.givenType? = some type

theorem declares_append_singleton {decls : List Declaration} {decl : Declaration}
    {name : QualifiedName} {type : TypeExpr} :
    Declares (decls ++ [decl]) name type ↔
      Declares decls name type ∨ decl.name = name ∧ decl.givenType? = some type := by
  simp [Declares, or_and_right, exists_or]

namespace Environment

/-! ## One addition -/

section addMember

variable (env : Environment) (name : QualifiedName)

@[simp] theorem modules_addMember : (env.addMember name).modules = env.modules := by
  unfold addMember
  split <;> rfl

@[simp] theorem aliases_addMember : (env.addMember name).aliases = env.aliases := by
  unfold addMember
  split <;> rfl

@[simp] theorem constants_addMember : (env.addMember name).constants = env.constants := by
  unfold addMember
  split <;> rfl

@[simp] theorem interfaces_addMember : (env.addMember name).interfaces = env.interfaces := by
  unfold addMember
  split <;> rfl

@[simp] theorem typeAliases_addMember : (env.addMember name).typeAliases = env.typeAliases := by
  unfold addMember
  split <;> rfl

@[simp] theorem pool_addMember : (env.addMember name).pool = env.pool := by
  unfold addMember
  split <;> rfl

theorem members_addMember :
    (env.addMember name).members =
      if name ∈ env.members then env.members else env.members ++ [name] := by
  unfold addMember
  split <;> rfl

end addMember

/-- The environment after a declaration that is not refused. -/
def accept (env : Environment) (decl : Declaration) : Environment :=
  (match decl with
    | .ofModule d =>
      { env with
        modules := env.modules.insert d.name
          (((env.module? d.name).getD (.opened d.name d.head.kind)).merge d) }.addMember d.name
    | .ofConstant d => env.addConstant d
    | .ofAlias d => env.addAlias d
    | .ofInterface d => { env with interfaces := env.interfaces.insert d.name d }
    | .ofTypeAlias d => { env with typeAliases := env.typeAliases.insert d.name d }).noteName
      decl.name

theorem addModule_eq_ok_iff {env env' : Environment} {decl : ModuleDecl} :
    env.addModule decl = .ok env' ↔
      (∀ entry, env.module? decl.name = some entry → entry.kind = decl.head.kind) ∧
        env' = { env with
          modules := env.modules.insert decl.name
            (((env.module? decl.name).getD (.opened decl.name decl.head.kind)).merge decl)
          }.addMember decl.name := by
  unfold addModule
  cases known : env.module? decl.name with
  | none => simp [ModuleEntry.opened, eq_comm]
  | some entry =>
    by_cases same : entry.kind = decl.head.kind <;> simp [same, eq_comm]

/-- Exactly those declarations are accepted that have no relative name in them and do not open a
class as a module or a module as a class. -/
theorem add_eq_ok_iff {env env' : Environment} {decl : Declaration} :
    env.add decl = .ok env' ↔
      (∀ name ∈ decl.mentioned, name.isAbsolute) ∧
        (∀ kind entry, decl.kind? = some kind → env.module? decl.name = some entry →
          entry.kind = kind) ∧ env' = env.accept decl := by
  unfold add
  cases relative : decl.mentioned.find? (!·.isAbsolute) with
  | some name =>
    have mem := List.mem_of_find?_eq_some relative
    have not_absolute : ¬name.isAbsolute := by simpa using List.find?_some relative
    exact iff_of_false nofun fun conditions => not_absolute (conditions.1 name mem)
  | none =>
    have absolute : ∀ name ∈ decl.mentioned, name.isAbsolute := by
      simpa [List.find?_eq_none] using relative
    rw [and_iff_right absolute]
    cases decl with
    | ofModule d =>
      constructor
      · intro added
        rw [store] at added
        cases tried : env.addModule d with
        | error refused => cases tried ▸ added
        | ok opened =>
          obtain ⟨fits, rfl⟩ := addModule_eq_ok_iff.1 tried
          refine ⟨?_, (Except.ok.inj (tried ▸ added)).symm⟩
          rintro kind entry ⟨⟩
          exact fits entry
      · rintro ⟨fits, rfl⟩
        have opened := addModule_eq_ok_iff.2 ⟨fun entry => fits _ entry rfl, rfl⟩
        exact congrArg (Except.map _) opened
    | ofConstant | ofAlias | ofInterface | ofTypeAlias =>
      exact ⟨fun added => ⟨nofun, (Except.ok.inj added).symm⟩, fun h => congrArg _ h.2.symm⟩

theorem eq_accept_of_add_eq_ok {env env' : Environment} {decl : Declaration}
    (added : env.add decl = .ok env') : env' = env.accept decl :=
  (add_eq_ok_iff.1 added).2.2

section accept

variable (env : Environment) (decl : Declaration)

theorem modules_accept :
    (env.accept decl).modules =
      match decl with
      | .ofModule d =>
        env.modules.insert d.name
          (((env.module? d.name).getD (.opened d.name d.head.kind)).merge d)
      | _ => env.modules := by
  cases decl <;> simp [accept, noteName, addConstant, addAlias]

theorem aliases_accept :
    (env.accept decl).aliases =
      match decl with
      | .ofAlias d => env.aliases.insert d.name d
      | _ => env.aliases := by
  cases decl <;> simp [accept, noteName, addConstant, addAlias]

theorem constants_accept :
    (env.accept decl).constants =
      match decl with
      | .ofConstant d => env.constants.insert d.name (env.constantDecls d.name ++ [d])
      | _ => env.constants := by
  cases decl <;> simp [accept, noteName, addConstant, addAlias]

theorem interfaces_accept :
    (env.accept decl).interfaces =
      match decl with
      | .ofInterface d => env.interfaces.insert d.name d
      | _ => env.interfaces := by
  cases decl <;> simp [accept, noteName, addConstant, addAlias]

theorem typeAliases_accept :
    (env.accept decl).typeAliases =
      match decl with
      | .ofTypeAlias d => env.typeAliases.insert d.name d
      | _ => env.typeAliases := by
  cases decl <;> simp [accept, noteName, addConstant, addAlias]

theorem members_accept :
    (env.accept decl).members =
      if decl.givenType?.isSome ∧ decl.name ∉ env.members then env.members ++ [decl.name]
      else env.members := by
  cases decl <;>
    simp [accept, noteName, addConstant, addAlias, members_addMember, Declaration.givenType?,
      Declaration.name]

theorem pool_accept : (env.accept decl).pool = env.pool.insert decl.name.last := by
  cases decl <;> simp [accept, noteName, addConstant, addAlias]

end accept

/-! ## The constants of a name -/

/-- The types of the constants of a name, sort by sort. -/
theorem mem_types_constantsNamed {env : Environment} {name : QualifiedName} {type : TypeExpr} :
    type ∈ (env.constantsNamed name).map Constant.type ↔
      ((env.module? name).isSome ∨ (env.alias? name).isSome) ∧ type = .singleton name ∨
        ∃ d ∈ env.constantDecls name, d.type = type := by
  have ofModule : type ∈ ((env.module? name).map fun entry =>
      (⟨name, .singleton name, entry.locations.head?⟩ : Constant)).toList.map Constant.type ↔
        (env.module? name).isSome ∧ type = .singleton name := by
    cases env.module? name <;> simp
  have ofAlias : type ∈ ((env.alias? name).map fun decl =>
      (⟨name, .singleton name, decl.location?⟩ : Constant)).toList.map Constant.type ↔
        (env.alias? name).isSome ∧ type = .singleton name := by
    cases env.alias? name <;> simp
  simp only [constantsNamed, List.map_append, List.mem_append, ofModule, ofAlias, ← or_and_right]
  simp

theorem name_of_mem_constantsNamed {env : Environment} {name : QualifiedName} {c : Constant}
    (mem : c ∈ env.constantsNamed name) : c.name = name := by
  simp only [constantsNamed, List.mem_append, Option.mem_toList, Option.map_eq_some_iff,
    List.mem_map] at mem
  obtain (⟨_, _, rfl⟩ | ⟨_, _, rfl⟩) | ⟨_, _, rfl⟩ := mem <;> rfl

/-- An accepted declaration adds its type to the types of its name. -/
theorem mem_types_accept {env : Environment} {decl : Declaration} {name : QualifiedName}
    {type : TypeExpr} :
    type ∈ ((env.accept decl).constantsNamed name).map Constant.type ↔
      type ∈ (env.constantsNamed name).map Constant.type ∨
        decl.name = name ∧ decl.givenType? = some type := by
  simp only [mem_types_constantsNamed, module?, alias?, constantDecls, modules_accept,
    aliases_accept, constants_accept]
  cases decl with
  | ofModule d =>
    simp only [OrderedMap.find?_insert, Declaration.name, Declaration.givenType?]
    grind
  | ofConstant d =>
    simp only [OrderedMap.find?_insert, Declaration.name, Declaration.givenType?]
    grind
  | ofAlias d =>
    simp only [OrderedMap.find?_insert, Declaration.name, Declaration.givenType?]
    grind
  | ofInterface d => simp [Declaration.givenType?]
  | ofTypeAlias d => simp [Declaration.givenType?]

/-! ## Built environments -/

/-- The environment is what the declarations add up to. A declaration that is refused changes
nothing, so it is not among them. -/
inductive Built : List Declaration → Environment → Prop
  | empty : Built [] ∅
  | add {decls : List Declaration} {env : Environment} {decl : Declaration} {env' : Environment}
      (built : Built decls env) (added : env.add decl = .ok env') : Built (decls ++ [decl]) env'

namespace Built

variable {decls : List Declaration} {env : Environment}

/-- The constants of a name have exactly the types that the declarations give it. -/
theorem mem_types_iff (built : Built decls env) {name : QualifiedName} {type : TypeExpr} :
    type ∈ (env.constantsNamed name).map Constant.type ↔ Declares decls name type := by
  induction built with
  | empty =>
    have none_named : (∅ : Environment).constantsNamed name = [] := rfl
    simp [Declares, none_named]
  | add built added ih =>
    rw [eq_accept_of_add_eq_ok added, mem_types_accept, declares_append_singleton, ih]

theorem nodup_members (built : Built decls env) : env.members.Nodup := by
  induction built with
  | empty => exact List.nodup_nil
  | add built added ih =>
    rw [eq_accept_of_add_eq_ok added, members_accept]
    split
    · next fresh =>
      refine List.nodup_append.2 ⟨ih, by simp, ?_⟩
      grind
    · exact ih

/-- The members are the names that some declaration gives a type. -/
theorem mem_members_iff (built : Built decls env) {name : QualifiedName} :
    name ∈ env.members ↔ ∃ type, Declares decls name type := by
  induction built with
  | empty =>
    have no_members : (∅ : Environment).members = [] := rfl
    simp [Declares, no_members]
  | @add decls env decl env' built added ih =>
    simp only [declares_append_singleton, exists_or, ← ih, exists_and_left]
    rw [eq_accept_of_add_eq_ok added, members_accept]
    have given : decl.givenType?.isSome ↔ ∃ type, decl.givenType? = some type :=
      Option.isSome_iff_exists
    split <;> grind

/-- The pool has the last components of the declared names, of whatever sort. -/
theorem mem_names_pool_iff (built : Built decls env) {simple : String} :
    simple ∈ env.pool.names ↔ ∃ decl ∈ decls, decl.name.last = simple := by
  induction built with
  | empty =>
    have no_names : (∅ : Environment).pool.names = [] := rfl
    simp [no_names]
  | @add decls env decl env' built added ih =>
    rw [eq_accept_of_add_eq_ok added, pool_accept]
    unfold NamePool.insert
    split <;> grind

theorem isSome_find?_pool_iff (built : Built decls env) {simple : String} :
    (env.pool.find? simple).isSome ↔ ∃ decl ∈ decls, decl.name.last = simple := by
  rw [NamePool.isSome_find?_iff, built.mem_names_pool_iff]

/-- A name without declarations that give it a type has no constants. -/
theorem constantsNamed_eq_nil (built : Built decls env) {name : QualifiedName}
    (stranger : name ∉ env.members) : env.constantsNamed name = [] := by
  rw [built.mem_members_iff] at stranger
  refine List.eq_nil_iff_forall_not_mem.2 fun c mem => stranger ⟨c.type, ?_⟩
  exact built.mem_types_iff.1 (List.mem_map_of_mem mem)

/-- Every mixin of a class or module stands in one of its declarations. -/
theorem exists_decl_of_mem_mixins (built : Built decls env) {name : QualifiedName}
    {entry : ModuleEntry} {mixin : Mixin} (found : env.module? name = some entry)
    (mem : mixin ∈ entry.mixins) :
    ∃ decl : ModuleDecl, .ofModule decl ∈ decls ∧ decl.name = name ∧ mixin ∈ decl.mixins := by
  induction built generalizing entry with
  | empty => cases found
  | @add decls env decl env' built added ih =>
    have earlier {entry : ModuleEntry} (found : env.module? name = some entry)
        (mem : mixin ∈ entry.mixins) : ∃ d : ModuleDecl,
          .ofModule d ∈ decls ++ [decl] ∧ d.name = name ∧ mixin ∈ d.mixins := by
      obtain ⟨d, declared, rest⟩ := ih found mem
      exact ⟨d, List.mem_append_left _ declared, rest⟩
    rw [eq_accept_of_add_eq_ok added, module?, modules_accept] at found
    cases decl with
    | ofModule d =>
      simp only [OrderedMap.find?_insert] at found
      split at found
      · next same =>
        subst same
        obtain rfl := Option.some.inj found
        rcases List.mem_append.1 mem with before | here
        · cases known : env.module? d.name with
          | none =>
            rw [known] at before
            cases before
          | some entry => exact earlier known (by simpa [known] using before)
        · exact ⟨d, by simp, rfl, here⟩
      · exact earlier found mem
    | ofConstant | ofAlias | ofInterface | ofTypeAlias => exact earlier found mem

/-- A list of declarations that are all accepted builds its environment. -/
theorem of_ofDeclarations (accepted : ofDeclarations decls = .ok env) : Built decls env := by
  induction decls using List.reverseRecOn generalizing env with
  | nil =>
    cases accepted
    exact .empty
  | append_singleton decls decl ih =>
    rw [ofDeclarations, List.foldlM_append] at accepted
    cases before : decls.foldlM Environment.add Environment.empty with
    | error refused =>
      rw [before] at accepted
      cases accepted
    | ok env' =>
      rw [before] at accepted
      have last : [decl].foldlM Environment.add env' = .ok env := accepted
      exact (ih before).add (by simpa using last)

end Built

/-! ## An example -/

/-- Two classes that inherit from each other, one of them with a constant of two types, and beside
them a class that includes a module with a constant of its own. -/
def entangledDecls : List Declaration :=
  let a := Namespace.root.member "A"
  let b := Namespace.root.member "B"
  let c := Namespace.root.member "C"
  let m := Namespace.root.member "M"
  [.ofModule ⟨a, .ofClass (some b), [], none⟩,
    .ofModule ⟨b, .ofClass (some a), [], none⟩,
    .ofConstant ⟨b.toNamespace.member "X", .singleton a, none⟩,
    .ofConstant ⟨b.toNamespace.member "X", .singleton b, none⟩,
    .ofModule ⟨m, .ofModule [], [], none⟩,
    .ofConstant ⟨m.toNamespace.member "Y", .singleton m, none⟩,
    .ofModule ⟨c, .ofClass none, [⟨.included, m⟩], none⟩]

/-- The environment of `entangledDecls`. -/
def entangled : Environment := (ofDeclarations entangledDecls).toOption.getD ∅

theorem built_entangled : Built entangledDecls entangled := .of_ofDeclarations rfl

end Environment

end NameResolution
