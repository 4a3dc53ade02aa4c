import NameResolution.Proofs.Environment.Declared
import NameResolution.Proofs.Environment.Index

/-!
# Environments as merges

An environment holds, name by name, the merge of the declarations of that name in their order. What
is declared of other names, before, between and after them, does not matter. A class or module takes
the first superclass that is stated and all mixins and known locations; a constant keeps every
declaration; of an alias, an interface or a type alias the last declaration counts. Each sort has
its names in the order of their first declaration. A list of declarations that makes no environment
is refused with the error of the first declaration that cannot be added to the earlier ones.

## Main definitions

* `ModuleEntry.merged?` — what the declarations of one class or module add up to.
* `Stored.merged` — what the declarations of one name add up to, sort by sort.
* `DeclarationSort`, `namesOfSort` — the names that are declared in one sort.

## Main statements

* `Environment.Built.stored_eq_merged` — what is stored under a name.
* `Environment.Built.keysOfSort_eq` — the names of each sort.
* `Environment.ofDeclarations_eq_error_iff` — which error a list is refused with.
* `Environment.ofDeclarations_merges` — all of it, for one list of declarations.
-/

namespace NameResolution

/-! ## One sort of a declaration -/

/-- What the declaration says of its name as a class or module. -/
def Declaration.module? : Declaration → Option ModuleDecl
  | .ofModule decl => some decl
  | .ofConstant _ | .ofAlias _ | .ofInterface _ | .ofTypeAlias _ => none

/-- What the declaration says of its name as a constant. -/
def Declaration.constant? : Declaration → Option ConstantDecl
  | .ofConstant decl => some decl
  | .ofModule _ | .ofAlias _ | .ofInterface _ | .ofTypeAlias _ => none

/-- What the declaration says of its name as an interface. -/
def Declaration.interface? : Declaration → Option InterfaceDecl
  | .ofInterface decl => some decl
  | .ofModule _ | .ofConstant _ | .ofAlias _ | .ofTypeAlias _ => none

/-- What the declaration says of its name as a type alias. -/
def Declaration.typeAlias? : Declaration → Option TypeAliasDecl
  | .ofTypeAlias decl => some decl
  | .ofModule _ | .ofConstant _ | .ofAlias _ | .ofInterface _ => none

/-! ## The declarations of one name -/

/-- What the declarations of a class or module add up to: the kind of the first one, the first
superclass that one of them states, and all their mixins and known locations in order. -/
def ModuleEntry.merged? (decls : List ModuleDecl) : Option ModuleEntry :=
  decls.head?.map fun first =>
    { name := first.name
      kind := first.head.kind
      superclass? := decls.findSome? (·.head.superclass?)
      mixins := decls.flatMap ModuleDecl.mixins
      locations := decls.filterMap ModuleDecl.location? }

theorem ModuleEntry.merged?_append_singleton (decls : List ModuleDecl) (decl : ModuleDecl) :
    merged? (decls ++ [decl]) =
      some (((merged? decls).getD (.opened decl.name decl.head.kind)).merge decl) := by
  cases decls with
  | nil => cases known : decl.location? <;> simp [merged?, opened, merge, known]
  | cons first rest =>
    simp only [merged?, List.findSome?_append, List.flatMap_append, filterMap_append_singleton]
    simp [merge]

theorem ModuleEntry.locations_merged? (decls : List ModuleDecl) :
    ((merged? decls).map locations).getD [] = decls.filterMap ModuleDecl.location? := by
  cases decls <;> rfl

/-- All that the declarations of one name add up to, sort by sort. -/
def Stored.merged (decls : List Declaration) : Stored where
  module? := ModuleEntry.merged? (decls.filterMap Declaration.module?)
  alias? := (decls.filterMap Declaration.alias?).getLast?
  constants := decls.filterMap Declaration.constant?
  interface? := (decls.filterMap Declaration.interface?).getLast?
  typeAlias? := (decls.filterMap Declaration.typeAlias?).getLast?

theorem Stored.merged_append_singleton (decls : List Declaration) (decl : Declaration) :
    merged (decls ++ [decl]) = (merged decls).add decl := by
  simp only [merged, filterMap_append_singleton, List.getLast?_append]
  cases decl <;> simp [add, ModuleEntry.merged?_append_singleton, Declaration.module?,
    Declaration.alias?, Declaration.constant?, Declaration.interface?, Declaration.typeAlias?]

/-- Adding declarations one after the other comes to their merge. -/
theorem Stored.foldl_add (decls : List Declaration) : decls.foldl add nothing = merged decls := by
  induction decls using List.reverseRecOn with
  | nil => rfl
  | append_singleton decls decl ih =>
    rw [List.foldl_append, ih, merged_append_singleton]
    rfl

/-! ## The names of one sort -/

/-- The sorts of declarations. Names of different sorts are stored apart. -/
inductive DeclarationSort where
  | classOrModule
  | classAlias
  | constant
  | interface
  | typeAlias
deriving DecidableEq, Repr

/-- All sorts. -/
def DeclarationSort.all : List DeclarationSort :=
  [classOrModule, classAlias, constant, interface, typeAlias]

/-- The sort of a declaration. -/
def Declaration.sort : Declaration → DeclarationSort
  | .ofModule _ => .classOrModule
  | .ofAlias _ => .classAlias
  | .ofConstant _ => .constant
  | .ofInterface _ => .interface
  | .ofTypeAlias _ => .typeAlias

/-- The names that are declared in a sort, each once, in the order of their first declaration. -/
def namesOfSort (decls : List Declaration) (sort : DeclarationSort) : List QualifiedName :=
  ((decls.filter (·.sort = sort)).map Declaration.name).eraseDups

theorem namesOfSort_append_singleton (decls : List Declaration) (decl : Declaration)
    (sort : DeclarationSort) :
    namesOfSort (decls ++ [decl]) sort =
      if decl.sort = sort ∧ decl.name ∉ namesOfSort decls sort then
        namesOfSort decls sort ++ [decl.name]
      else namesOfSort decls sort := by
  unfold namesOfSort
  by_cases same : decl.sort = sort
  · have last : [decl].filter (·.sort = sort) = [decl] := by simp [same]
    rw [List.filter_append, last, List.map_append, List.map_singleton, eraseDups_append_singleton]
    split <;> simp_all
  · simp [same]

namespace Environment

variable {env : Environment} {decls : List Declaration} {name : QualifiedName}

/-- The names under which declarations of a sort are stored. -/
def keysOfSort (env : Environment) : DeclarationSort → List QualifiedName
  | .classOrModule => env.modules.keys
  | .classAlias => env.aliases.keys
  | .constant => env.constants.keys
  | .interface => env.interfaces.keys
  | .typeAlias => env.typeAliases.keys

theorem keysOfSort_accept (env : Environment) (decl : Declaration) (sort : DeclarationSort) :
    (env.accept decl).keysOfSort sort =
      if decl.sort = sort ∧ decl.name ∉ env.keysOfSort sort then env.keysOfSort sort ++ [decl.name]
      else env.keysOfSort sort := by
  cases sort <;> simp only [keysOfSort, modules_accept, aliases_accept, constants_accept,
    interfaces_accept, typeAliases_accept]
  all_goals
    cases decl <;> simp [Declaration.sort, Declaration.name, OrderedMap.insert,
      OrderedMap.keys_upsert, ite_not]

theorem names_eq_flatMap (env : Environment) :
    env.names = DeclarationSort.all.flatMap env.keysOfSort := by
  simp [names, DeclarationSort.all, keysOfSort]

/-- A name that is declared in several sorts counts once for each of them. -/
theorem size_eq_length_names (env : Environment) : env.size = env.names.length := by
  simp only [size, names, List.length_append, OrderedMap.length_keys]

namespace Built

/-- What is stored under a name is the merge of its own declarations. -/
theorem stored_eq_merged (built : Built decls env) (name : QualifiedName) :
    env.stored name = .merged (decls.filter (·.name = name)) := by
  rw [built.stored_eq_foldl, Stored.foldl_add]

/-- The names of a sort are stored in the order of their first declaration. -/
theorem keysOfSort_eq (built : Built decls env) (sort : DeclarationSort) :
    env.keysOfSort sort = namesOfSort decls sort := by
  induction built with
  | empty => cases sort <;> rfl
  | add built added ih =>
    rw [eq_accept_of_add_eq_ok added, keysOfSort_accept, namesOfSort_append_singleton, ih]

end Built

/-! ## Refusals -/

/-- A list of declarations is refused with the error of the first one that cannot be added to the
environment of those before it. -/
theorem ofDeclarations_eq_error_iff {refused : EnvironmentError} :
    ofDeclarations decls = .error refused ↔ ∃ before decl env,
      before ++ [decl] <+: decls ∧ ofDeclarations before = .ok env ∧
        env.add decl = .error refused := by
  induction decls using List.reverseRecOn with
  | nil => exact iff_of_false nofun fun ⟨_, _, _, short, _⟩ => by simp at short
  | append_singleton decls last ih =>
    have stops : ofDeclarations (decls ++ [last]) = .error refused ↔
        ofDeclarations decls = .error refused ∨
          ∃ env, ofDeclarations decls = .ok env ∧ env.add last = .error refused := by
      rw [ofDeclarations_append_singleton]
      cases ofDeclarations decls <;> simp [Except.bind]
    rw [stops, ih, or_comm]
    simp only [List.prefix_concat_iff, List.append_singleton_inj, or_and_right, exists_or]
    simp

/-! ## Lists of declarations -/

/-- A list of declarations makes an environment exactly when it mentions absolute names only and
opens no name as a class and as a module. What is stored under each name is then the merge of its
own declarations, a class or module with the kind that they all have. Every sort has the names that
are declared in it, in the order of their first declaration, and the size counts them. Otherwise the
list is refused with the error of the first declaration that cannot be added. -/
theorem ofDeclarations_merges (decls : List Declaration) :
    ((∃ env, ofDeclarations decls = .ok env) ↔ Consistent decls) ∧
    (∀ env, ofDeclarations decls = .ok env →
      (∀ name, env.stored name = .merged (decls.filter (·.name = name))) ∧
      (∀ decl ∈ decls, ∀ kind, decl.kind? = some kind →
        (env.module? decl.name).map ModuleEntry.kind = some kind) ∧
      (∀ sort, env.keysOfSort sort = namesOfSort decls sort) ∧
      env.size = (DeclarationSort.all.flatMap (namesOfSort decls)).length) ∧
    ∀ refused, ofDeclarations decls = .error refused ↔ ∃ before decl env,
      before ++ [decl] <+: decls ∧ ofDeclarations before = .ok env ∧
        env.add decl = .error refused := by
  refine ⟨exists_ofDeclarations_iff, fun env accepted => ?_, fun _ => ofDeclarations_eq_error_iff⟩
  have built := Built.of_ofDeclarations accepted
  refine ⟨built.stored_eq_merged, fun decl mem kind opens => ?_, built.keysOfSort_eq, ?_⟩
  · exact built.kind_eq_some_iff.2 ⟨decl, mem, rfl, opens⟩
  · rw [size_eq_length_names, names_eq_flatMap, funext built.keysOfSort_eq]

/-- A class that is opened three times, the first time without a superclass, among declarations of
other names and other sorts, some of which come twice. -/
def interleavedDecls : List Declaration :=
  let named := Namespace.root.member
  let place (offset : UInt32) : Location := ⟨⟨0⟩, offset, offset, UInt32.le_refl _⟩
  let c := named "C"
  [.ofModule ⟨c, .ofClass none, [⟨.included, named "A"⟩], some (place 1)⟩,
    .ofConstant ⟨c, .singleton c, none⟩,
    .ofModule ⟨named "M", .ofModule [c], [⟨.prepended, c⟩], none⟩,
    .ofAlias ⟨c, named "P", .classKind, none⟩,
    .ofModule ⟨c, .ofClass (some (named "P")), [⟨.prepended, named "A"⟩], none⟩,
    .ofInterface ⟨named "M", none⟩,
    .ofConstant ⟨c, .singleton (named "M"), some (place 2)⟩,
    .ofModule ⟨c, .ofClass (some (named "Q")), [⟨.included, named "A"⟩], some (place 3)⟩,
    .ofAlias ⟨c, named "Q", .classKind, some (place 4)⟩]

/-- The environment of `interleavedDecls`. -/
def interleaved : Environment := (ofDeclarations interleavedDecls).toOption.getD ∅

/-- The class has the superclass that is stated first and everything else in order, the alias that
is declared last counts, and a relative name is not reached behind an attempt to open the class as a
module. -/
theorem ofDeclarations_merges_interleaved :
    let named := Namespace.root.member
    let place (offset : UInt32) : Location := ⟨⟨0⟩, offset, offset, UInt32.le_refl _⟩
    let c := named "C"
    let opened : Declaration := .ofModule ⟨c, .ofModule [], [], none⟩
    let relative : Declaration := .ofInterface ⟨⟨⟨false, []⟩, "C"⟩, none⟩
    Consistent interleavedDecls ∧ ofDeclarations interleavedDecls = .ok interleaved ∧
      interleaved.stored c = ⟨some ⟨c, .classKind, some (named "P"),
          [⟨.included, named "A"⟩, ⟨.prepended, named "A"⟩, ⟨.included, named "A"⟩],
          [place 1, place 3]⟩,
        some ⟨c, named "Q", .classKind, some (place 4)⟩,
        [⟨c, .singleton c, none⟩, ⟨c, .singleton (named "M"), some (place 2)⟩], none, none⟩ ∧
      interleaved.modules.keys = [c, named "M"] ∧ interleaved.size = 5 ∧
      ofDeclarations (interleavedDecls ++ [opened, relative]) =
        .error (.kindMismatch c .classKind .moduleKind) := by
  intro named place c opened relative
  have accepted : ofDeclarations interleavedDecls = .ok interleaved := rfl
  have refused : interleaved.add opened = .error (.kindMismatch c .classKind .moduleKind) := rfl
  obtain ⟨accepted_iff, merges, -⟩ := ofDeclarations_merges interleavedDecls
  obtain ⟨stored, -, keys, size⟩ := merges interleaved accepted
  obtain ⟨-, -, refused_iff⟩ := ofDeclarations_merges (interleavedDecls ++ [opened, relative])
  exact ⟨accepted_iff.1 ⟨interleaved, accepted⟩, accepted, (stored c).trans (by decide +kernel),
    (keys .classOrModule).trans (by decide +kernel), size.trans (by decide +kernel),
    (refused_iff _).2
      ⟨interleavedDecls, opened, interleaved, ⟨[relative], by simp⟩, accepted, refused⟩⟩

end Environment

end NameResolution
