import NameResolution.Proofs.Ancestry.Reach
import NameResolution.Proofs.Diagnostic.Ties
import NameResolution.Proofs.Environment.Merged
import NameResolution.Proofs.OrderedMap.Entries

/-!
# Reported references

A class or module mentions the superclass that is stated first, and every mixin as often as it is
stated. Checking an environment reports each mention that stands for no class or module, and each
alias that stands for none. Nothing else is left out of ancestries: without these reports, every
lineage that is asked for first has all that its class or module mentions, cycles or not.

## Main definitions

* `Mention` — a superclass or mixin, as it is kept for its class or module.
* `mentions`, `keptAliases` — what is mentioned, and the aliases that count, from the declarations.

## Main statements

* `Environment.Built.reports_unknownAncestors`, `Environment.Built.reports_danglingAliases` — what
  is reported.
* `Hierarchy.edge_of_mem_ancestorNames`, `Hierarchy.exists_first_line` — what is mentioned and not
  reported is in the line that is asked for first.
* `Environment.referenceReports_exact` — the reports, and what their absence means.
-/

namespace NameResolution

/-! ## What declarations mention -/

/-- A superclass or mixin, as it is kept for its class or module. -/
structure Mention where
  owner : QualifiedName
  ancestor : QualifiedName
  /-- The first known location of the owner. -/
  location? : Option Location
deriving DecidableEq

/-- The diagnostic that a mention stands for no class or module. -/
def Mention.report (mention : Mention) : Diagnostic :=
  (Finding.unknownAncestor mention.owner mention.ancestor mention.location?).toDiagnostic

/-- The mentions of a merged class or module: the superclass, then the mixins in order. -/
def ModuleEntry.mentions (owner : QualifiedName) (entry : ModuleEntry) : List Mention :=
  entry.ancestorNames.map (⟨owner, ·, entry.locations.head?⟩)

/-- The mentions of all classes and modules, in the order of their first declaration. -/
def mentions (decls : List Declaration) : List Mention :=
  (namesOfSort decls .classOrModule).flatMap fun owner =>
    (Stored.merged (decls.filter (·.name = owner))).module?.toList.flatMap (·.mentions owner)

/-- The aliases as they are declared last, in the order of their first declaration. -/
def keptAliases (decls : List Declaration) : List AliasDecl :=
  (namesOfSort decls .classAlias).filterMap (lastAlias? decls)

namespace Environment

variable {decls : List Declaration} {env : Environment}

namespace Built

theorem mentions_eq (built : Built decls env) :
    mentions decls = env.modules.entries.flatMap fun entry => entry.2.mentions entry.1 := by
  rw [← env.modules.flatMap_find?_keys fun owner entry => entry.mentions owner, mentions,
    ← built.keysOfSort_eq]
  refine List.flatMap_congr fun owner _ => ?_
  rw [← built.stored_eq_merged]
  rfl

theorem keptAliases_eq (built : Built decls env) :
    keptAliases decls = env.aliases.entries.map Prod.snd := by
  rw [← OrderedMap.filterMap_find?_keys, keptAliases, ← built.keysOfSort_eq]
  exact List.filterMap_congr fun name _ => (built.alias?_eq name).symm

/-- An alias carries the name that it is stored under. -/
theorem name_of_mem_aliases (built : Built decls env) {entry : QualifiedName × AliasDecl}
    (mem : entry ∈ env.aliases.entries) : entry.2.name = entry.1 :=
  ((built.fits entry.1).ofAlias entry.2 (OrderedMap.find?_of_mem_entries mem)).1

/-- Every mention that stands for no class or module is reported once. -/
theorem reports_unknownAncestors (built : Built decls env) :
    env.reports "E0004" =
      ((mentions decls).filter fun mention => (env.normalize? mention.ancestor).isNone).map
        Mention.report := by
  have found : env.reports "E0004" = env.unknownAncestors.map Finding.toDiagnostic := by
    simp [reports_eq_map]
  rw [found, unknownAncestors, built.mentions_eq, List.map_flatMap, List.filter_flatMap,
    List.map_flatMap]
  refine List.flatMap_congr fun ⟨owner, entry⟩ _ => ?_
  rw [ModuleEntry.mentions, List.filter_map, List.map_map, List.map_map]
  rfl

/-- Every alias that stands for no class or module is reported once. -/
theorem reports_danglingAliases (built : Built decls env) :
    env.reports "E0005" =
      ((keptAliases decls).filter fun decl => (env.normalize? decl.name).isNone).map
        fun decl => (Finding.danglingAlias decl).toDiagnostic := by
  have found : env.reports "E0005" = env.danglingAliases.map Finding.toDiagnostic := by
    simp [reports_eq_map]
  rw [found, danglingAliases, built.keptAliases_eq, List.filter_map, List.map_map, List.map_map]
  congr 1
  refine List.filter_congr fun entry mem => ?_
  rw [Function.comp_apply, built.name_of_mem_aliases mem]

theorem names_keptAliases (built : Built decls env) :
    (keptAliases decls).map AliasDecl.name = namesOfSort decls .classAlias := by
  rw [← built.keysOfSort_eq, built.keptAliases_eq, List.map_map]
  exact List.map_congr_left fun entry mem => built.name_of_mem_aliases mem

end Built

/-- Unknown mentions come first, then aliases, then ties. -/
theorem map_toDiagnostic_check (env : Environment) :
    env.check.map Finding.toDiagnostic =
      env.reports "E0004" ++ env.reports "E0005" ++ env.reports "E0002" := by
  simp [reports_eq_map, check]

/-! ## What an entry mentions -/

namespace Built

variable {name : QualifiedName} {entry : ModuleEntry}

/-- A mention of a stored entry is one of the declarations' mentions. -/
theorem mem_mentions (built : Built decls env) (found : env.module? name = some entry)
    {ancestor : QualifiedName} (mem : ancestor ∈ entry.ancestorNames) :
    ⟨name, ancestor, entry.locations.head?⟩ ∈ mentions decls := by
  rw [built.mentions_eq, List.mem_flatMap]
  exact ⟨(name, entry), (OrderedMap.find?_eq_some_iff ..).1 found,
    List.mem_map.2 ⟨ancestor, mem, rfl⟩⟩

/-- Only classes state a superclass. -/
theorem isClass_of_superclass? (built : Built decls env) (found : env.module? name = some entry)
    {superclass : QualifiedName} (stated : entry.superclass? = some superclass) :
    entry.isClass := by
  have stored := congrArg Stored.module? (built.stored_eq_merged name)
  obtain ⟨first, -, merged⟩ := Option.map_eq_some_iff.1 (stored.symm.trans found)
  have origin : ∃ d : ModuleDecl, .ofModule d ∈ decls ∧ d.name = name ∧
      d.head.superclass? = some superclass := by
    rw [← merged] at stated
    obtain ⟨d, mem, states⟩ := List.exists_of_findSome?_eq_some stated
    obtain ⟨decl, mem, opens⟩ := List.mem_filterMap.1 mem
    obtain ⟨mem, named⟩ := List.mem_filter.1 mem
    cases decl <;> cases opens
    exact ⟨d, mem, of_decide_eq_true named, states⟩
  obtain ⟨d, mem, named, states⟩ := origin
  have kind : d.head.kind = .classKind := by
    cases head : d.head with
    | ofClass => rfl
    | ofModule => simp [head, ModuleHead.superclass?] at states
  have same := built.kind_eq_some_iff.2 ⟨_, mem, named, congrArg some kind⟩
  rw [found] at same
  simp [ModuleEntry.isClass, Option.some.inj same]

end Built

end Environment

namespace Hierarchy

variable {h : Hierarchy} {decls : List Declaration} {name ancestor target : QualifiedName}
  {entry : ModuleEntry}

/-- A mention that stands for a class or module is an edge. -/
theorem edge_of_mem_ancestorNames (built : Environment.Built decls h.environment)
    (declared : h.environment.module? name = some entry) (mem : ancestor ∈ entry.ancestorNames)
    (leads : h.environment.normalize? ancestor = some target) : h.Edge name target := by
  rcases List.mem_append.1 mem with stated | mixed
  · have stated := Option.mem_toList.1 stated
    refine .superclass declared ?_ leads
    rw [superclass?, if_pos (built.isClass_of_superclass? declared stated), stated]
    rfl
  · obtain ⟨mixin, mixes, rfl⟩ := List.mem_map.1 mixed
    exact .mixin declared mixes leads

/-- With nothing known, a request for a class or module is answered with all that it reaches. -/
theorem exists_first_line (declared : (h.environment.module? name).isSome) :
    ∃ line, ((h.ancestors? name).run ∅).1 = some line ∧
      ∀ target, h.Reaches name target → target ∈ line := by
  have itself := Environment.normalize?_of_contains declared
  have visit := run_ancestors?_of_some itself ∅
  refine ⟨_, congrArg Prod.fst visit, fun target reaches => ?_⟩
  have known := (isSome_ancestors?_iff Grown.empty itself).2 (.inr reaches)
  rw [visit] at known
  exact ((explored_lineage Grown.empty.closedBut name).covers target known).resolve_left nofun

theorem isSome_openChildren? (leads : h.environment.normalize? name = some target)
    (memory : Memory) : ((h.openChildren? name).run memory).1.isSome := by
  simp [openChildren?, leads]
  rfl

end Hierarchy

namespace Environment

/-- A check reports every mention of a superclass or mixin that stands for no class or module, then
every alias that does not, and then ties. Where nothing is reported but ties, the lineage of any
class or module, if it is asked for first, has all that its entry mentions and the implied
superclass, even in a cycle, and every alias opens a table. -/
theorem referenceReports_exact {decls : List Declaration} {env : Environment}
    (built : Built decls env) :
    (env.reports "E0004" =
        ((mentions decls).filter fun mention => (env.normalize? mention.ancestor).isNone).map
          Mention.report ∧
      env.reports "E0005" =
        ((keptAliases decls).filter fun decl => (env.normalize? decl.name).isNone).map
          (fun decl => (Finding.danglingAlias decl).toDiagnostic) ∧
      (keptAliases decls).map AliasDecl.name = namesOfSort decls .classAlias ∧
      env.check.map Finding.toDiagnostic =
        env.reports "E0004" ++ env.reports "E0005" ++ env.reports "E0002") ∧
    (env.reports "E0004" = [] → env.reports "E0005" = [] → ∀ builtins,
      (∀ name entry, env.module? name = some entry →
        ∃ line, ((Hierarchy.ancestors? ⟨env, builtins⟩ name).run ∅).1 = some line ∧
          (∀ ancestor ∈ entry.ancestorNames,
            ∃ target ∈ line, env.normalize? ancestor = some target) ∧
          ∀ target, Hierarchy.Edge ⟨env, builtins⟩ name target → target ∈ line) ∧
      ∀ name ∈ namesOfSort decls .classAlias, ∀ memory,
        ((Hierarchy.openChildren? ⟨env, builtins⟩ name).run memory).1.isSome) := by
  refine ⟨⟨built.reports_unknownAncestors, built.reports_danglingAliases, built.names_keptAliases,
    env.map_toDiagnostic_check⟩, fun known ends builtins => ⟨fun name entry declared => ?_, ?_⟩⟩
  · rw [built.reports_unknownAncestors, List.map_eq_nil_iff, List.filter_eq_nil_iff] at known
    obtain ⟨line, answered, covers⟩ :=
      Hierarchy.exists_first_line (h := ⟨env, builtins⟩) (Option.isSome_of_eq_some declared)
    refine ⟨line, answered, fun ancestor mem => ?_, fun target edge => covers target (.single edge)⟩
    cases leads : env.normalize? ancestor with
    | none => exact absurd (by simp [leads]) (known _ (built.mem_mentions declared mem))
    | some target =>
      have edge :=
        Hierarchy.edge_of_mem_ancestorNames (h := ⟨env, builtins⟩) built declared mem leads
      exact ⟨target, covers target (.single edge), rfl⟩
  · rw [built.reports_danglingAliases, List.map_eq_nil_iff, List.filter_eq_nil_iff] at ends
    intro name mem memory
    rw [← built.names_keptAliases] at mem
    obtain ⟨decl, kept, rfl⟩ := List.mem_map.1 mem
    cases leads : env.normalize? decl.name with
    | none => exact absurd (by simp [leads]) (ends decl kept)
    | some target => exact Hierarchy.isSome_openChildren? (h := ⟨env, builtins⟩) leads memory

/-- Two classes that inherit from each other, once through an alias, and a module prepended to
itself. -/
def referringDecls : List Declaration :=
  let named := Namespace.root.member
  [.ofModule ⟨named "A", .ofClass (some (named "B")), [⟨.included, named "M"⟩], none⟩,
    .ofModule ⟨named "B", .ofClass (some (named "Short")), [], none⟩,
    .ofModule ⟨named "M", .ofModule [], [⟨.prepended, named "M"⟩], none⟩,
    .ofAlias ⟨named "Short", named "A", .classKind, none⟩]

/-- The same with one class reopened to mix in a dangling alias twice, and a loop of aliases. -/
def strayDecls : List Declaration :=
  let named := Namespace.root.member
  referringDecls ++
    [.ofModule ⟨named "A", .ofClass none,
        [⟨.included, named "Gone"⟩, ⟨.prepended, named "Gone"⟩], none⟩,
      .ofAlias ⟨named "Gone", named "Nowhere", .moduleKind, none⟩,
      .ofAlias ⟨named "P", named "Q", .moduleKind, none⟩,
      .ofAlias ⟨named "Q", named "P", .moduleKind, none⟩]

/-- The environment of `referringDecls`. -/
def referring : Environment := (ofDeclarations referringDecls).toOption.getD ∅

/-- The environment of `strayDecls`. -/
def stray : Environment := (ofDeclarations strayDecls).toOption.getD ∅

/-- The alias that leads nowhere is reported for itself and for each of its two mentions. Without it
and the loop, a first lineage has everything, although the ancestry is cyclic. -/
theorem referenceReports_exact_stray :
    let named := Namespace.root.member
    let gone : Mention := ⟨named "A", named "Gone", none⟩
    let dangling (name target : String) : Diagnostic :=
      (Finding.danglingAlias ⟨named name, named target, .moduleKind, none⟩).toDiagnostic
    stray.reports "E0004" = [gone.report, gone.report] ∧
      stray.reports "E0005" = [dangling "Gone" "Nowhere", dangling "P" "Q", dangling "Q" "P"] ∧
      referring.reports "E0004" = [] ∧ referring.reports "E0005" = [] ∧
      (∃ line, ((Hierarchy.ancestors? ⟨referring, .standard⟩ (named "B")).run ∅).1 = some line ∧
        ∀ ancestor ∈ [named "Short"], ∃ target ∈ line,
          referring.normalize? ancestor = some target) ∧
      ((Hierarchy.openChildren? ⟨referring, .standard⟩ (named "Short")).run ∅).1.isSome := by
  intro named gone dangling
  have built : Built referringDecls referring := .of_ofDeclarations rfl
  have built_stray : Built strayDecls stray := .of_ofDeclarations rfl
  obtain ⟨⟨unknown, dangles, -⟩, -⟩ := referenceReports_exact built_stray
  obtain ⟨⟨unknown', dangles', -⟩, complete⟩ := referenceReports_exact built
  have unknown' : referring.reports "E0004" = [] := unknown'.trans (by decide +kernel)
  have dangles' : referring.reports "E0005" = [] := dangles'.trans (by decide +kernel)
  obtain ⟨lines, tables⟩ := complete unknown' dangles' .standard
  obtain ⟨line, answered, mentioned, -⟩ := lines (named "B")
    ⟨named "B", .classKind, some (named "Short"), [], []⟩ (by decide +kernel)
  exact ⟨unknown.trans (by decide +kernel), dangles.trans (by decide +kernel), unknown', dangles',
    ⟨line, answered, mentioned⟩, tables (named "Short") (by decide +kernel) ∅⟩

end Environment

end NameResolution
