import NameResolution.Proofs.Environment.Alias
import NameResolution.Proofs.Environment.Stored

/-!
# What declared names stand for

Which names are those of classes and modules, which ones can stand in a type and where a chain of
aliases ends, all told from the declarations alone.

## Main definitions

* `Opens` — some declaration opens a class or module of a name.
* `NamesModule`, `NamesType` — some declaration makes a name one of a class, a module or an alias,
  or one that can stand in a type.
* `StandsFor` — a name leads to a class or module, through any number of aliases.

## Main statements

* `Environment.Built.isTypeName_iff` — the names that can stand in a type.
* `Environment.Built.normalize?_eq_some_iff` — the ends of chains of aliases.
-/

namespace NameResolution

/-! ## Declarations -/

/-- Whether the declaration makes its name one of a class, a module or an alias of one. -/
def Declaration.namesModule : Declaration → Bool
  | .ofModule _ | .ofAlias _ => true
  | .ofConstant _ | .ofInterface _ | .ofTypeAlias _ => false

/-- Whether the declaration makes its name one that can stand in a type. -/
def Declaration.namesType : Declaration → Bool
  | .ofModule _ | .ofAlias _ | .ofInterface _ | .ofTypeAlias _ => true
  | .ofConstant _ => false

/-- What the declaration says of its name as an alias. -/
def Declaration.alias? : Declaration → Option AliasDecl
  | .ofAlias decl => some decl
  | .ofModule _ | .ofConstant _ | .ofInterface _ | .ofTypeAlias _ => none

theorem Declaration.givenType?_of_namesModule {decl : Declaration} (names : decl.namesModule) :
    decl.givenType? = some (.singleton decl.name) := by
  cases decl <;> first | rfl | cases names

theorem Declaration.not_namesModule_of_untyped {decl : Declaration}
    (untyped : decl.givenType? = none) : ¬decl.namesModule := by
  intro names
  simp [decl.givenType?_of_namesModule names] at untyped

theorem Declaration.namesType_of_namesModule {decl : Declaration} (names : decl.namesModule) :
    decl.namesType := by
  cases decl <;> first | rfl | cases names

section Names

variable (decls : List Declaration) (name : QualifiedName)

/-- Some declaration opens a class or module of the name. -/
def Opens : Prop := ∃ decl ∈ decls, decl.name = name ∧ decl.kind?.isSome

/-- Some declaration makes the name one of a class, a module or an alias of one. -/
def NamesModule : Prop := ∃ decl ∈ decls, decl.name = name ∧ decl.namesModule

/-- Some declaration makes the name one that can stand in a type. -/
def NamesType : Prop := ∃ decl ∈ decls, decl.name = name ∧ decl.namesType

/-- The last declaration of the name as an alias. -/
def lastAlias? : Option AliasDecl :=
  ((decls.filterMap Declaration.alias?).filter (·.name = name)).getLast?

instance : Decidable (Opens decls name) := inferInstanceAs (Decidable (∃ _ ∈ decls, _))

instance : Decidable (NamesModule decls name) := inferInstanceAs (Decidable (∃ _ ∈ decls, _))

instance : Decidable (NamesType decls name) := inferInstanceAs (Decidable (∃ _ ∈ decls, _))

end Names

theorem lastAlias?_append_singleton (decls : List Declaration) (decl : Declaration)
    (name : QualifiedName) :
    lastAlias? (decls ++ [decl]) name =
      (decl.alias?.filter (·.name = name)).or (lastAlias? decls name) := by
  unfold lastAlias?
  cases given : decl.alias? with
  | none => simp [given]
  | some d => by_cases same : d.name = name <;> simp [given, same, Option.filter]

/-- The name leads to the class or module `target`: it is the name of that class or module, or one
that has no class or module but an alias, whose target leads there. -/
inductive StandsFor (decls : List Declaration) : QualifiedName → QualifiedName → Prop
  | itself {name : QualifiedName} (opened : Opens decls name) : StandsFor decls name name
  | through {name target : QualifiedName} {decl : AliasDecl} (unopened : ¬Opens decls name)
      (aliased : lastAlias? decls name = some decl) (rest : StandsFor decls decl.target target) :
      StandsFor decls name target

theorem NamesModule.namesType {decls : List Declaration} {name : QualifiedName}
    (names : NamesModule decls name) : NamesType decls name := by
  obtain ⟨decl, mem, named, names⟩ := names
  exact ⟨decl, mem, named, decl.namesType_of_namesModule names⟩

theorem Opens.namesModule {decls : List Declaration} {name : QualifiedName}
    (opened : Opens decls name) : NamesModule decls name := by
  obtain ⟨decl, mem, named, opens⟩ := opened
  refine ⟨decl, mem, named, ?_⟩
  cases decl <;> first | rfl | cases opens

theorem ofAlias_mem_of_lastAlias? {decls : List Declaration} {name : QualifiedName}
    {decl : AliasDecl} (last : lastAlias? decls name = some decl) :
    .ofAlias decl ∈ decls ∧ decl.name = name := by
  obtain ⟨mem, named⟩ := List.mem_filter.1 (List.mem_of_getLast? last)
  obtain ⟨decl', mem, given⟩ := List.mem_filterMap.1 mem
  cases decl' <;> cases given
  exact ⟨mem, by simpa using named⟩

/-- Only classes, modules and aliases lead anywhere. -/
theorem StandsFor.namesModule {decls : List Declaration} {name target : QualifiedName}
    (leads : StandsFor decls name target) : NamesModule decls name := by
  cases leads with
  | itself opened => exact opened.namesModule
  | through _ aliased _ =>
    obtain ⟨mem, named⟩ := ofAlias_mem_of_lastAlias? aliased
    exact ⟨_, mem, named, rfl⟩

namespace Environment

/-! ## What is looked up -/

theorem isTypeName_accept {env : Environment} {decl : Declaration} {name : QualifiedName} :
    (env.accept decl).isTypeName name ↔
      env.isTypeName name ∨ decl.name = name ∧ decl.namesType := by
  simp only [isTypeName, isModuleName, modules_accept, aliases_accept, interfaces_accept,
    typeAliases_accept, Bool.or_eq_true, OrderedMap.contains_iff_mem_keys]
  cases decl <;>
    grind [OrderedMap.mem_keys_insert, Declaration.name, Declaration.namesType]

namespace Built

variable {decls : List Declaration} {env : Environment} {name target : QualifiedName}

theorem isTypeName_iff (built : Built decls env) : env.isTypeName name ↔ NamesType decls name := by
  induction built with
  | empty => exact iff_of_false nofun fun ⟨_, mem, _⟩ => nomatch mem
  | add built added ih =>
    rw [eq_accept_of_add_eq_ok added, isTypeName_accept, ih]
    simp [NamesType, or_and_right, exists_or]

theorem contains_modules_iff (built : Built decls env) :
    env.modules.contains name ↔ Opens decls name := by
  have kinds : env.modules.contains name ↔
      ∃ kind, (env.module? name).map ModuleEntry.kind = some kind := by
    rw [← Option.isSome_iff_exists, Option.isSome_map]
    rfl
  simp only [kinds, built.kind_eq_some_iff, Opens, Option.isSome_iff_exists]
  grind

theorem alias?_eq (built : Built decls env) (name : QualifiedName) :
    env.alias? name = lastAlias? decls name := by
  induction built with
  | empty => rfl
  | @add decls env decl env' built added ih =>
    rw [eq_accept_of_add_eq_ok added, alias?, aliases_accept, lastAlias?_append_singleton]
    cases decl with
    | ofAlias d =>
      rw [OrderedMap.find?_insert, Declaration.alias?, ← ih]
      by_cases same : name = d.name
      · simp [same, Option.filter]
      · simp [same, Ne.symm same, Option.filter, alias?]
    | ofModule | ofConstant | ofInterface | ofTypeAlias => exact ih

/-! ## Chains of aliases -/

/-- A name stands for a class or module exactly when a chain of aliases leads to it. -/
theorem normalize?_eq_some_iff (built : Built decls env) :
    env.normalize? name = some target ↔ StandsFor decls name target := by
  constructor
  · suffices leads : ∀ unused, env.follow unused name = some target → StandsFor decls name target
      from leads _
    intro unused found
    fun_induction follow env unused name with
    | case1 unused name here =>
      obtain rfl := Option.some.inj found
      exact .itself (built.contains_modules_iff.1 here)
    | case2 => cases found
    | case3 unused name absent decl aliased fresh ih =>
      exact .through (mt built.contains_modules_iff.2 absent) (built.alias?_eq name ▸ aliased)
        (ih found)
    | case4 => cases found
  · intro leads
    induction leads with
    | itself opened => exact normalize?_of_contains (built.contains_modules_iff.2 opened)
    | through unopened aliased rest ih =>
      rw [normalize?_of_alias (mt built.contains_modules_iff.1 unopened)
        ((built.alias?_eq _).trans aliased), ih]

end Built

end Environment

end NameResolution
