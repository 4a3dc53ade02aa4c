import NameResolution.Proofs.Environment.Built

/-!
# What is stored under a name

An accepted declaration changes what is stored under its own name and nothing else. So all that an
environment stores under a name is what the declarations of that name add up to, in their order,
and the declarations of other names, before, between and after them, leave no trace.

## Main definitions

* `Stored` — all that is stored under one name.
* `Consistent` — declarations of which none is refused.
* `Joins` — a declaration that is not refused after others.
* `Rearranges` — the same declarations in an order that differs between names only.

## Main statements

* `Environment.Built.stored_eq_foldl` — what is stored under a name, from its declarations.
* `Environment.Built.exists_add_iff`, `Environment.exists_ofDeclarations_iff` — when a declaration,
  and when a list of them, is accepted.
-/

namespace NameResolution

/-! ## One name -/

/-- All that an environment stores under one name. -/
structure Stored where
  module? : Option ModuleEntry
  alias? : Option AliasDecl
  constants : List ConstantDecl
  interface? : Option InterfaceDecl
  typeAlias? : Option TypeAliasDecl
deriving DecidableEq

namespace Stored

/-- What is stored under a name without declarations. -/
def nothing : Stored := ⟨none, none, [], none, none⟩

/-- What is stored under a name after one more declaration of it. -/
def add (stored : Stored) : Declaration → Stored
  | .ofModule d =>
    { stored with
      module? := some ((stored.module?.getD (.opened d.name d.head.kind)).merge d) }
  | .ofConstant d => { stored with constants := stored.constants ++ [d] }
  | .ofAlias d => { stored with alias? := some d }
  | .ofInterface d => { stored with interface? := some d }
  | .ofTypeAlias d => { stored with typeAlias? := some d }

end Stored

namespace Environment

variable {env : Environment} {decls : List Declaration} {name : QualifiedName}

/-- All that the environment stores under a name. -/
def stored (env : Environment) (name : QualifiedName) : Stored :=
  ⟨env.module? name, env.alias? name, env.constantDecls name, env.interface? name,
    env.typeAlias? name⟩

theorem stored_accept (env : Environment) (decl : Declaration) (name : QualifiedName) :
    (env.accept decl).stored name =
      if decl.name = name then (env.stored name).add decl else env.stored name := by
  simp only [stored, module?, alias?, constantDecls, interface?, typeAlias?, modules_accept,
    aliases_accept, constants_accept, interfaces_accept, typeAliases_accept]
  cases decl <;>
    grind [OrderedMap.find?_insert, Declaration.name, Stored.add, module?, constantDecls]

namespace Built

/-- What is stored under a name is what its declarations add up to. -/
theorem stored_eq_foldl (built : Built decls env) (name : QualifiedName) :
    env.stored name = (decls.filter (·.name = name)).foldl Stored.add .nothing := by
  induction built with
  | empty => rfl
  | @add decls env decl env' built added ih =>
    rw [eq_accept_of_add_eq_ok added, stored_accept, ih, List.filter_append, List.foldl_append]
    by_cases same : decl.name = name <;> simp [same]

/-- The kind of a class or module is the one that its declarations open it with. -/
theorem kind_eq_some_iff (built : Built decls env) {kind : ModuleKind} :
    (env.module? name).map ModuleEntry.kind = some kind ↔
      ∃ decl ∈ decls, decl.name = name ∧ decl.kind? = some kind := by
  induction built with
  | empty => exact iff_of_false nofun fun ⟨_, mem, _⟩ => nomatch mem
  | @add decls env decl env' built added ih =>
    obtain ⟨-, fits, rfl⟩ := add_eq_ok_iff.1 added
    simp only [List.mem_append, List.mem_singleton, or_and_right, exists_or, exists_eq_left, ← ih]
    cases decl with
    | ofModule d =>
      have opens : (env.accept (.ofModule d)).module? name =
          if name = d.name then
            some (((env.module? d.name).getD (.opened d.name d.head.kind)).merge d)
          else env.module? name := by
        rw [module?, modules_accept, OrderedMap.find?_insert]
        rfl
      have kept : ((env.module? d.name).getD (.opened d.name d.head.kind)).kind = d.head.kind := by
        cases known : env.module? d.name with
        | none => rfl
        | some entry => exact fits _ entry rfl known
      by_cases same : name = d.name
      · subst same
        have earlier : (env.module? d.name).map ModuleEntry.kind = some kind →
            d.head.kind = kind := by
          intro known
          obtain ⟨entry, found, rfl⟩ := Option.map_eq_some_iff.1 known
          exact (fits _ entry rfl found).symm
        rw [opens, if_pos rfl, Option.map_some, ModuleEntry.merge, kept]
        simpa [Declaration.kind?, Declaration.name] using earlier
      · rw [opens, if_neg same]
        simp [Declaration.name, Ne.symm same]
    | ofConstant | ofAlias | ofInterface | ofTypeAlias =>
      rw [module?, modules_accept]
      simp [Declaration.kind?, module?]

end Built

/-! ## Acceptance -/

theorem ofDeclarations_append_singleton (decls : List Declaration) (decl : Declaration) :
    ofDeclarations (decls ++ [decl]) = (ofDeclarations decls).bind (·.add decl) := by
  rw [ofDeclarations, ofDeclarations, List.foldlM_append]
  cases decls.foldlM add empty with
  | error refused => rfl
  | ok env => exact bind_pure (env.add decl)

end Environment

/-- Only absolute names are mentioned, and no name is opened as a class and as a module. -/
structure Consistent (decls : List Declaration) : Prop where
  absolute : ∀ decl ∈ decls, ∀ name ∈ decl.mentioned, name.isAbsolute
  kinds : ∀ decl ∈ decls, ∀ other ∈ decls, decl.name = other.name → ∀ kind kind',
    decl.kind? = some kind → other.kind? = some kind' → kind = kind'

theorem Consistent.subset {decls decls' : List Declaration} (consistent : Consistent decls)
    (sub : decls' ⊆ decls) : Consistent decls' :=
  ⟨fun decl mem => consistent.absolute decl (sub mem),
    fun decl mem other mem' => consistent.kinds decl (sub mem) other (sub mem')⟩

/-- The declaration mentions absolute names only, and opens its name as `decls` open it. -/
structure Joins (decl : Declaration) (decls : List Declaration) : Prop where
  absolute : ∀ name ∈ decl.mentioned, name.isAbsolute
  kinds : ∀ other ∈ decls, other.name = decl.name → ∀ kind kind',
    other.kind? = some kind → decl.kind? = some kind' → kind = kind'

theorem consistent_append_singleton {decls : List Declaration} {decl : Declaration} :
    Consistent (decls ++ [decl]) ↔ Consistent decls ∧ Joins decl decls := by
  constructor
  · intro consistent
    exact ⟨consistent.subset (List.subset_append_left _ _), consistent.absolute decl (by simp),
      fun other mem => consistent.kinds other (by simp [mem]) decl (by simp)⟩
  · rintro ⟨consistent, joins⟩
    refine ⟨fun first mem => ?_, fun first mem second mem' same kind kind' opened opened' => ?_⟩
    · rcases List.mem_append.1 mem with old | new
      · exact consistent.absolute first old
      · exact List.mem_singleton.1 new ▸ joins.absolute
    · simp only [List.mem_append, List.mem_singleton] at mem mem'
      rcases mem with old | rfl <;> rcases mem' with old' | rfl
      · exact consistent.kinds first old second old' same kind kind' opened opened'
      · exact joins.kinds first old same kind kind' opened opened'
      · exact (joins.kinds second old' same.symm kind' kind opened' opened).symm
      · exact Option.some.inj (opened.symm.trans opened')

namespace Environment

/-- A declaration is accepted exactly when it joins the earlier ones. -/
theorem Built.exists_add_iff {decls : List Declaration} {env : Environment}
    (built : Built decls env) {decl : Declaration} :
    (∃ env', env.add decl = .ok env') ↔ Joins decl decls := by
  constructor
  · rintro ⟨env', added⟩
    obtain ⟨absolute, fits, -⟩ := add_eq_ok_iff.1 added
    refine ⟨absolute, fun other mem same kind kind' opened opened' => ?_⟩
    obtain ⟨entry, known, rfl⟩ := Option.map_eq_some_iff.1
      (built.kind_eq_some_iff.2 ⟨other, mem, same, opened⟩)
    exact fits kind' entry opened' known
  · intro joins
    have fits (kind : ModuleKind) (entry : ModuleEntry) (opened : decl.kind? = some kind)
        (known : env.module? decl.name = some entry) : entry.kind = kind := by
      obtain ⟨other, mem, same, opened'⟩ := built.kind_eq_some_iff.1
        (congrArg (Option.map ModuleEntry.kind) known)
      exact joins.kinds other mem same _ _ opened' opened
    exact ⟨env.accept decl, add_eq_ok_iff.2 ⟨joins.absolute, fits, rfl⟩⟩

/-- A list of declarations is accepted exactly when it is consistent. -/
theorem exists_ofDeclarations_iff {decls : List Declaration} :
    (∃ env, ofDeclarations decls = .ok env) ↔ Consistent decls := by
  induction decls using List.reverseRecOn with
  | nil => exact iff_of_true ⟨∅, rfl⟩ ⟨List.forall_mem_nil _, List.forall_mem_nil _⟩
  | append_singleton decls decl ih =>
    rw [ofDeclarations_append_singleton, consistent_append_singleton, ← ih]
    cases before : ofDeclarations decls with
    | error refused => exact iff_of_false nofun nofun
    | ok env =>
      rw [and_iff_right ⟨env, rfl⟩]
      exact (Built.of_ofDeclarations before).exists_add_iff

end Environment

/-! ## The order of declarations -/

/-- The second list has the declarations of the first one in another order, in which the
declarations of each name follow each other as before. -/
def Rearranges (decls decls' : List Declaration) : Prop :=
  ∀ name, decls.filter (·.name = name) = decls'.filter (·.name = name)

namespace Rearranges

variable {decls decls' : List Declaration} {env env' : Environment}

protected theorem symm (rearranged : Rearranges decls decls') : Rearranges decls' decls :=
  fun name => (rearranged name).symm

theorem perm (rearranged : Rearranges decls decls') : decls.Perm decls' := by
  refine List.perm_iff_count.2 fun decl => ?_
  have among (decls : List Declaration) :
      (decls.filter (·.name = decl.name)).count decl = decls.count decl :=
    List.count_filter (decide_eq_true rfl)
  rw [← among decls, rearranged, among]

theorem exists_ofDeclarations_iff (rearranged : Rearranges decls decls') :
    (∃ env, Environment.ofDeclarations decls = .ok env) ↔
      ∃ env', Environment.ofDeclarations decls' = .ok env' := by
  rw [Environment.exists_ofDeclarations_iff, Environment.exists_ofDeclarations_iff]
  exact ⟨fun consistent => consistent.subset rearranged.symm.perm.subset,
    fun consistent => consistent.subset rearranged.perm.subset⟩

theorem stored_eq (rearranged : Rearranges decls decls') (built : Environment.Built decls env)
    (built' : Environment.Built decls' env') (name : QualifiedName) :
    env.stored name = env'.stored name := by
  rw [built.stored_eq_foldl, built'.stored_eq_foldl, rearranged name]

/-- Only names that are declared have to be looked at. -/
theorem iff_forall_mem : Rearranges decls decls' ↔
    ∀ name ∈ (decls ++ decls').map Declaration.name,
      decls.filter (·.name = name) = decls'.filter (·.name = name) := by
  refine ⟨fun rearranged name _ => rearranged name, fun same name => ?_⟩
  by_cases declared : name ∈ (decls ++ decls').map Declaration.name
  · exact same name declared
  · have strange : ∀ decl ∈ decls ++ decls', ¬decl.name = name :=
      fun decl mem named => declared (List.mem_map.2 ⟨decl, mem, named⟩)
    rw [List.filter_eq_nil_iff.2, List.filter_eq_nil_iff.2]
    · simpa using fun decl mem => strange decl (List.mem_append_right _ mem)
    · simpa using fun decl mem => strange decl (List.mem_append_left _ mem)

instance (decls decls' : List Declaration) : Decidable (Rearranges decls decls') :=
  decidable_of_iff _ iff_forall_mem.symm

end Rearranges

end NameResolution
