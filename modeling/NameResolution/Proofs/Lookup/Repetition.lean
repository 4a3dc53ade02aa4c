import NameResolution.Proofs.Ancestry.Repetition
import NameResolution.Proofs.Environment.Declared
import NameResolution.Proofs.Lookup.Transcript

/-!
# Answers after a class or module was opened again with nothing new

Lookups read a hierarchy through a few of its functions. Where two hierarchies have these in common,
every lookup does the same in both, step by step. A class or module that is opened again with
nothing new has more mixins than before, and still changes none of these functions.

## Main definitions

* `Hierarchy.Indistinct` — lookups read exactly the same of two hierarchies.

## Main statements

* `Hierarchy.Indistinct.ask_eq` — a query does the same in both.
* `Environment.Restates.indistinct` — nothing new is read after the reopening.
* `Hierarchy.askAll_restates` — opening a class or module again with nothing new changes no answer.
-/

namespace NameResolution

namespace Hierarchy

variable {h h' : Hierarchy}

/-! ## Lookups in two hierarchies -/

/-- Lookups read exactly the same of both hierarchies. -/
structure Indistinct (h h' : Hierarchy) : Prop where
  builtins : h.builtins = h'.builtins
  normalize? : h.environment.normalize? = h'.environment.normalize?
  isClass : ∀ name, (h.environment.module? name).any (·.isClass) =
    (h'.environment.module? name).any (·.isClass)
  ancestors? : h.ancestors? = h'.ancestors?
  table : h.environment.table = h'.environment.table
  pool : h.environment.pool = h'.environment.pool
  typePath? : h.environment.typePath? = h'.environment.typePath?

namespace Indistinct

variable (same : h.Indistinct h')

include same

theorem openTable_eq : h.openTable = h'.openTable := by
  funext ns
  rw [openTable, openTable, same.table]

theorem openRoot_eq : h.openRoot = h'.openRoot := by
  rw [openRoot, openRoot, same.openTable_eq]

theorem openChildren?_eq : h.openChildren? = h'.openChildren? := by
  funext name
  rw [openChildren?, openChildren?, same.normalize?, same.openTable_eq]

theorem openEnclosing?_eq : h.openEnclosing? = h'.openEnclosing? := by
  funext name
  rw [openEnclosing?, openEnclosing?, same.openRoot_eq, same.openChildren?_eq]

theorem openScope?_eq : h.openScope? = h'.openScope? := by
  funext scope
  cases scope with
  | root => rw [openScope?, openScope?, same.openRoot_eq]
  | inside name => rw [openScope?, openScope?, same.openChildren?_eq]
  | around frame => rw [openScope?, openScope?, same.openEnclosing?_eq]

theorem lookupIn_eq : h.lookupIn = h'.lookupIn := by
  funext name scope
  rw [lookupIn, lookupIn, same.openScope?_eq]

theorem search_eq : h.search = h'.search := by
  funext name scopes
  induction scopes with
  | nil => rfl
  | cons scope outer ih => rw [search, search, same.lookupIn_eq, ih]

theorem searchStages_eq : h.searchStages = h'.searchStages := by
  funext name stages
  induction stages with
  | nil => rfl
  | cons stage later ih => rw [searchStages, searchStages, same.search_eq, ih]

theorem gather_eq : h.gather = h'.gather := by
  funext scopes
  induction scopes with
  | nil => rfl
  | cons scope outer ih => rw [gather, gather, same.openScope?_eq, ih]

theorem recallAncestors?_eq : h.recallAncestors? = h'.recallAncestors? := by
  funext name
  rw [recallAncestors?, recallAncestors?, same.ancestors?]

theorem inheritedScopes_eq : h.inheritedScopes = h'.inheritedScopes := by
  funext context
  rw [inheritedScopes, inheritedScopes, same.recallAncestors?_eq, same.builtins]

theorem outermostScopes_eq : h.outermostScopes = h'.outermostScopes := by
  rw [outermostScopes, outermostScopes, same.builtins]

theorem objectScopes_eq : h.objectScopes = h'.objectScopes := by
  rw [objectScopes, objectScopes, same.recallAncestors?_eq, same.builtins]

theorem memberChain?_eq : h.memberChain? = h'.memberChain? := by
  funext name
  simp only [memberChain?, same.normalize?, same.recallAncestors?_eq, same.isClass, same.builtins]

theorem isDeclaredSomewhere_eq : h.isDeclaredSomewhere = h'.isDeclaredSomewhere := by
  funext name
  rw [isDeclaredSomewhere, isDeclaredSomewhere, same.pool]

/-! ### Queries -/

theorem resolve_eq : h.resolve = h'.resolve := by
  funext name context
  rw [resolve, resolve, same.isDeclaredSomewhere_eq, same.searchStages_eq, same.inheritedScopes_eq,
    same.outermostScopes_eq, same.objectScopes_eq]

theorem resolveChild_eq : h.resolveChild = h'.resolveChild := by
  funext qualifier name
  rw [resolveChild, resolveChild, same.isDeclaredSomewhere_eq, same.memberChain?_eq, same.search_eq]

theorem constants_eq : h.constants = h'.constants := by
  funext context
  simp only [constants, allScopes, same.gather_eq, same.inheritedScopes_eq,
    same.outermostScopes_eq, same.objectScopes_eq]

theorem children_eq : h.children = h'.children := by
  funext qualifier
  simp only [children, same.normalize?, same.memberChain?_eq, same.gather_eq]

theorem resolveTypeName_eq : h.resolveTypeName = h'.resolveTypeName := by
  funext name context
  rw [resolveTypeName, resolveTypeName, same.typePath?]

/-- A query is answered the same in both, and leaves the same remembered. -/
theorem ask_eq : h.ask = h'.ask := by
  funext query
  cases query with
  | rootTable => rw [ask, ask, same.openRoot_eq]
  | childTable => rw [ask, ask, same.openChildren?_eq]
  | enclosingTable => rw [ask, ask, same.openEnclosing?_eq]
  | constantAt => rw [ask, ask, constantAt, constantAt, same.openEnclosing?_eq]
  | ancestors => rw [ask, ask, same.recallAncestors?_eq]
  | resolve => rw [ask, ask, same.resolve_eq]
  | resolveChild => rw [ask, ask, same.resolveChild_eq]
  | constants => rw [ask, ask, same.constants_eq]
  | children => rw [ask, ask, same.children_eq]
  | typeName => rw [ask, ask, same.resolveTypeName_eq]

theorem askAll_eq : h.askAll = h'.askAll := by
  funext queries
  rw [askAll, askAll, same.ask_eq]

end Indistinct

end Hierarchy

/-! ## Nothing new -/

namespace Environment

theorem Built.mem_members_of_module? {decls : List Declaration} {env : Environment}
    (built : Built decls env) {name : QualifiedName} (declared : (env.module? name).isSome) :
    name ∈ env.members := by
  obtain ⟨decl, mem, rfl, names⟩ := (built.contains_modules_iff.1 declared).namesModule
  exact built.mem_members_iff.2
    ⟨_, decl, mem, rfl, Declaration.givenType?_of_namesModule names⟩

namespace Restates

variable {decls : List Declaration} {env env' : Environment} {decl : ModuleDecl}
  (restates : env.Restates decl env')

include restates

/-- Every entry is as it was, but for mixins of the reopened one. -/
theorem exists_module?_eq (name : QualifiedName) :
    ∃ more, env'.module? name =
      (env.module? name).map fun entry => { entry with mixins := entry.mixins ++ more } := by
  by_cases here : name = decl.name
  · subst here
    obtain ⟨entry, known⟩ := Option.isSome_iff_exists.1 restates.declared
    refine ⟨decl.mixins, ?_⟩
    rw [restates.module?_eq known, known]
    simp [ModuleEntry.merge, restates.no_superclass, restates.unplaced]
  · refine ⟨[], ?_⟩
    rw [restates.module?_eq_of_ne here]
    simp

theorem constantsNamed_eq : env'.constantsNamed = env.constantsNamed := by
  funext name
  obtain ⟨more, entry_eq⟩ := restates.exists_module?_eq name
  have aliases : env'.aliases = env.aliases := by
    rw [eq_accept_of_add_eq_ok restates.added, aliases_accept]
  have constants : env'.constants = env.constants := by
    rw [eq_accept_of_add_eq_ok restates.added, constants_accept]
  rw [constantsNamed, constantsNamed, entry_eq, alias?, constantDecls, aliases, constants,
    Option.map_map]
  rfl

theorem isTypeName_eq (name : QualifiedName) : env'.isTypeName name = env.isTypeName name := by
  have modules := restates.contains_modules_eq name
  simp only [isTypeName, isModuleName, modules]
  rw [eq_accept_of_add_eq_ok restates.added, aliases_accept, interfaces_accept, typeAliases_accept]

variable (built : Built decls env)

include built

theorem members_eq : env'.members = env.members := by
  have known := built.mem_members_of_module? restates.declared
  rw [eq_accept_of_add_eq_ok restates.added, members_accept, if_neg fun fresh => fresh.2 known]

theorem pool_eq : env'.pool = env.pool := by
  have known : decl.name.last ∈ env.pool.names := by
    obtain ⟨earlier, mem, named, -⟩ := built.contains_modules_iff.1 restates.declared
    exact built.mem_names_pool_iff.2 ⟨earlier, mem, named ▸ rfl⟩
  rw [eq_accept_of_add_eq_ok restates.added, pool_accept, NamePool.insert]
  exact dif_pos known

/-- Lookups read exactly what they read before. -/
theorem indistinct (builtins : Builtins) :
    Hierarchy.Indistinct ⟨env', builtins⟩ ⟨env, builtins⟩ where
  builtins := rfl
  normalize? := funext restates.normalize?_eq
  isClass name := by
    obtain ⟨more, entry_eq⟩ := restates.exists_module?_eq name
    rw [entry_eq, Option.any_map]
    rfl
  ancestors? := funext (restates.ancestors?_eq builtins)
  table := by
    funext ns
    rw [table, table, membersOf, membersOf, restates.members_eq built, restates.constantsNamed_eq]
  pool := restates.pool_eq built
  typePath? := by
    funext name context
    exact typePath?_congr restates.isTypeName_eq restates.normalize?_eq
      (fun simple => by rw [restates.pool_eq built]) name context

end Restates

end Environment

namespace Hierarchy

/-- A class or module that is opened again, without a location and without a superclass, to mix in
what it mixes in already in the same forms, gives every run of queries the answers that it had,
whatever is remembered when the run starts, and leaves the same remembered. The ancestry may be
cyclic, and a module may be both included and prepended. -/
theorem askAll_restates {decls : List Declaration} {env env' : Environment} {decl : ModuleDecl}
    (built : Environment.Built decls env) (restates : env.Restates decl env')
    (builtins : Builtins) (queries : List Query) (memory : Memory) :
    (askAll ⟨env', builtins⟩ queries).run memory = (askAll ⟨env, builtins⟩ queries).run memory := by
  rw [(restates.indistinct built builtins).askAll_eq]

end Hierarchy

namespace Environment

/-- A class in a cycle of superclasses that both includes and prepends a module, which is in a cycle
of includes itself and has a second name. -/
def recurringDecls : List Declaration :=
  let named := Namespace.root.member
  let n := named "N"
  [.ofModule ⟨named "A", .ofClass (some (named "B")),
      [⟨.included, named "M"⟩, ⟨.prepended, n⟩, ⟨.prepended, named "M"⟩], none⟩,
    .ofModule ⟨named "B", .ofClass (some (named "A")), [⟨.included, n⟩], none⟩,
    .ofModule ⟨named "M", .ofModule [], [⟨.included, n⟩], none⟩,
    .ofModule ⟨n, .ofModule [], [⟨.included, named "M"⟩], none⟩,
    .ofAlias ⟨named "Short", named "M", .moduleKind, none⟩,
    .ofConstant ⟨n.toNamespace.member "X", .singleton n, none⟩]

/-- The environment of `recurringDecls`. -/
def recurring : Environment := (ofDeclarations recurringDecls).toOption.getD ∅

theorem built_recurring : Built recurringDecls recurring := .of_ofDeclarations rfl

/-- The class once more, with its mixins in another order and one of them under its second name. -/
def recurringAgain : ModuleDecl :=
  let named := Namespace.root.member
  ⟨named "A", .ofClass none,
    [⟨.prepended, named "N"⟩, ⟨.included, named "Short"⟩, ⟨.prepended, named "Short"⟩], none⟩

theorem restates_recurring :
    recurring.Restates recurringAgain (recurring.accept (.ofModule recurringAgain)) where
  declared := by decide +kernel
  added := rfl
  no_superclass := rfl
  unplaced := rfl
  repeats := by
    rintro entry known
    obtain rfl := Option.some.inj (known.symm.trans (show _ = some _ from rfl))
    decide +kernel

end Environment

namespace Hierarchy

/-- The lines in the cycles are what they were, in the order in which they are asked for, and so is
the constant. -/
theorem askAll_restates_recurring :
    let named := Namespace.root.member
    let x : Constant := ⟨(named "N").toNamespace.member "X", .singleton (named "N"), none⟩
    let asked (env : Environment) := ((askAll ⟨env, .standard⟩ [.ancestors (named "B"),
      .ancestors (named "A"), .ancestors (named "N"), .resolve "X" ⟨[named "A"]⟩]).run ∅).1
    ∃ env', Environment.recurring.add (.ofModule Environment.recurringAgain) = .ok env' ∧
      asked env' = asked .recurring ∧
      asked env' =
        [.ancestors (some [named "B", named "M", named "N", named "A", named "M", named "N"]),
          .ancestors (some [named "M", named "N", named "A", named "M", named "N"]),
          .ancestors (some [named "N"]),
          .resolution (.found x)] := by
  intro named x asked
  have restates := Environment.restates_recurring
  have unchanged := congrArg Prod.fst
    (askAll_restates Environment.built_recurring restates .standard [.ancestors (named "B"),
      .ancestors (named "A"), .ancestors (named "N"), .resolve "X" ⟨[named "A"]⟩] ∅)
  exact ⟨_, restates.added, unchanged, unchanged.trans (by decide +kernel)⟩

end Hierarchy

end NameResolution
