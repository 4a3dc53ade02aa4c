import NameResolution.Diagnostic.Check
import NameResolution.Proofs.Lists
import NameResolution.Proofs.Lookup.Alias
import NameResolution.Proofs.Lookup.TypePath

/-!
# Using resolved type names

The answer to a relative type name is spelled as the name was written, under the chosen frame. What
it stands for afterwards is what is declared under that spelling. If it is the very declaration that
the walk has led to, this is the class or module that the walk has found. An answer in which a
component was only found through an alias is in general no declared name, and then stands for
nothing; where it happens to be one, it stands for what is declared there.

## Main definitions

* `Hierarchy.Means` — a name means a class or module where lookups follow aliases.
* `Hierarchy.Meaningless` — a name means nothing there.

## Main statements

* `Hierarchy.means_iff`, `Hierarchy.meaningless_iff` — what a name means, from the declarations.
* `Hierarchy.resolved_name_dereferences` — what the answers to type names stand for.
* `Hierarchy.resolved_name_need_not_dereference` — answers that stand for something else or for
  nothing, and a frame that does not give way to what it stands for.
-/

namespace NameResolution

/-! ## Paths without aliases -/

/-- When a declaration has each component, the walk passes through no alias. -/
theorem WalksTo.eq_below {decls : List Declaration} {start last : QualifiedName}
    {components : List String} (walks : WalksTo decls start components last)
    (named : ∀ part, part <+: components → NamesType decls (start.below part)) :
    last = start.below components := by
  induction walks with
  | here => rfl
  | @step start next last component rest first further ih =>
    have here : NamesType decls (start.toNamespace.member component) :=
      named [component] (List.prefix_append [component] rest)
    cases first with
    | below _ =>
      refine ih fun part starts => ?_
      exact named (component :: part) ((List.prefix_cons_inj component).2 starts)
    | through unnamed _ _ => exact absurd here unnamed

namespace Environment

variable {decls : List Declaration} {env : Environment} {name : QualifiedName} {context : Context}
  {path : TypePath}

/-- A name that means something is found in the closest scope that has its first component. -/
theorem Built.exists_scope_of_typePath? (built : Built decls env) {head : String}
    {rest : List String} (written : name.components = head :: rest)
    (followed : env.typePath? name context = some path) :
    ∃ before ns after, context.typeScopes = before ++ ns :: after ∧
      (∀ scope ∈ before, ¬NamesType decls (scope.member head)) ∧
      NamesType decls (ns.member head) := by
  refine exists_first (by_contra fun nowhere => ?_)
  rw [built.typePath?_eq_none written fun ns mem named => nowhere ⟨ns, mem, named⟩] at followed
  cases followed

/-- What is reported as unknown is inherited or mixed in and stands for nothing. -/
theorem mem_unknownAncestors_iff {owner ancestor : QualifiedName} {location? : Option Location} :
    .unknownAncestor owner ancestor location? ∈ env.unknownAncestors ↔
      ∃ entry, env.module? owner = some entry ∧ ancestor ∈ entry.ancestorNames ∧
        env.normalize? ancestor = none ∧ location? = entry.locations.head? := by
  have stored (entry : ModuleEntry) :
      (owner, entry) ∈ env.modules.entries ↔ env.module? owner = some entry :=
    (OrderedMap.find?_eq_some_iff ..).symm
  simp only [unknownAncestors, List.mem_flatMap, List.mem_map, List.mem_filter, Prod.exists,
    Option.isNone_iff_eq_none, Finding.unknownAncestor.injEq, ← stored]
  grind

end Environment

namespace Hierarchy

variable {h : Hierarchy} {name target : QualifiedName}

/-! ## Uses of a name -/

/-- The name means the class or module `target` as a superclass, a mixin and the target of an alias,
in queries about a class or module, and as a frame of a context in which constants are looked for or
listed, and it is never reported as unknown. Of the innermost frame the own name is left out, which
is seen from its body as it is written. Frames around a type name are not covered: they are read as
they are written. -/
structure Means (h : Hierarchy) (name target : QualifiedName) : Prop where
  leads : h.environment.normalize? name = some target
  link : ∀ role, h.link? role name = some ⟨role, target⟩
  aliased : ∀ other decl, ¬h.environment.modules.contains other →
    h.environment.alias? other = some decl → decl.target = name →
    h.environment.normalize? other = some target
  asked : ∀ query query', Query.Renames name target query query' → h.ask query = h.ask query'
  listed : ∀ queries inner outer listing listing',
    (.constants ⟨inner ++ name :: outer⟩, .listing (some listing)) ∈ h.transcript queries →
    (.constants ⟨inner ++ target :: outer⟩, .listing (some listing')) ∈ h.transcript queries →
    ∀ simple, (inner = [] → simple ≠ name.last ∧ simple ≠ target.last) →
      listing.find? simple = listing'.find? simple
  unreported : ∀ owner location?,
    .unknownAncestor owner name location? ∉ h.environment.unknownAncestors

/-- The name gives no link and opens no table, an alias of it leads nowhere, and every class or
module that inherits it or mixes it in is reported. -/
structure Meaningless (h : Hierarchy) (name : QualifiedName) : Prop where
  leads : h.environment.normalize? name = none
  link : ∀ role, h.link? role name = none
  aliased : ∀ other decl, ¬h.environment.modules.contains other →
    h.environment.alias? other = some decl → decl.target = name →
    h.environment.normalize? other = none
  opened : h.openChildren? name = pure none
  reported : ∀ owner entry, h.environment.module? owner = some entry →
    name ∈ entry.ancestorNames →
    .unknownAncestor owner name entry.locations.head? ∈ h.environment.unknownAncestors

theorem means_of_normalize? (leads : h.environment.normalize? name = some target) :
    h.Means name target where
  leads := leads
  link role := by rw [link?, leads, Option.map_some]
  aliased other decl absent aliased same := by
    rw [Environment.normalize?_of_alias absent aliased, same, leads]
  asked _ _ renames := ask_congr (Environment.normalize?_eq_of_leads leads) renames
  listed _ inner outer _ _ asked asked' _ :=
    find?_listing_congr (Environment.normalize?_eq_of_leads leads) inner outer asked asked'
  unreported owner location? reported := by
    obtain ⟨_, -, -, nowhere, -⟩ := Environment.mem_unknownAncestors_iff.1 reported
    cases leads.symm.trans nowhere

theorem meaningless_of_normalize? (nowhere : h.environment.normalize? name = none) :
    h.Meaningless name where
  leads := nowhere
  link role := by rw [link?, nowhere, Option.map_none]
  aliased other decl absent aliased same := by
    rw [Environment.normalize?_of_alias absent aliased, same, nowhere]
  opened := by rw [openChildren?, nowhere]
  reported owner entry declared inherits :=
    Environment.mem_unknownAncestors_iff.2 ⟨entry, declared, inherits, nowhere, rfl⟩

section Declared

variable {decls : List Declaration} (built : Environment.Built decls h.environment)

include built

/-- A name means what its own declarations make it stand for. -/
theorem means_iff : h.Means name target ↔ StandsFor decls name target :=
  ⟨fun means => built.normalize?_eq_some_iff.1 means.leads,
    fun leads => means_of_normalize? (built.normalize?_eq_some_iff.2 leads)⟩

theorem meaningless_iff : h.Meaningless name ↔ ∀ target, ¬StandsFor decls name target := by
  constructor
  · intro meaningless target leads
    cases meaningless.leads.symm.trans (built.normalize?_eq_some_iff.2 leads)
  · intro nowhere
    refine meaningless_of_normalize? (Option.eq_none_iff_forall_ne_some.2 fun target leads => ?_)
    exact nowhere target (built.normalize?_eq_some_iff.1 leads)

end Declared

/-! ## Answers to type names -/

/-- The answer to a relative type name is the name as it is written, below one of the scopes, and
means what is declared under that spelling: a class or module means itself, an alias means what its
target stands for, and what is none of these means nothing. If the answer is the very declaration
that the walk has led to, it means the class or module that this stands for, and it is that
declaration when everything on the way to it from the scope is declared. -/
theorem resolved_name_dereferences {decls : List Declaration} {env : Environment}
    (built : Environment.Built decls env) (builtins : Builtins) (queries : List Query)
    (context : Context) (name : QualifiedName) {head : String} {rest : List String}
    (relative : ¬name.isAbsolute) (written : name.components = head :: rest) {path : TypePath}
    {target : QualifiedName} (followed : env.typePath? name context = some path)
    (leads : env.normalize? path.declared = some target) :
    ((ask ⟨env, builtins⟩ (.typeName name context)).run
        (memoryAfter ⟨env, builtins⟩ queries)).1 = .typeName (some path.spelled) ∧
      (path.spelled = path.declared → Means ⟨env, builtins⟩ path.spelled target) ∧
      (∃ ns ∈ context.typeScopes, path.spelled = ns.qualify name ∧
        ((∀ part, part <+: rest → NamesType decls ((ns.member head).below part)) →
          path.spelled = path.declared)) ∧
      (∀ other, Means ⟨env, builtins⟩ path.spelled other ↔ StandsFor decls path.spelled other) ∧
      (Meaningless ⟨env, builtins⟩ path.spelled ↔ ∀ other, ¬StandsFor decls path.spelled other) ∧
      (Opens decls path.spelled → Means ⟨env, builtins⟩ path.spelled path.spelled) ∧
      (¬NamesModule decls path.spelled → Meaningless ⟨env, builtins⟩ path.spelled) := by
  obtain ⟨before, ns, after, scopes, closer, named⟩ :=
    built.exists_scope_of_typePath? written followed
  obtain ⟨spelled, walks⟩ :=
    (built.typePath?_eq_some_iff relative written scopes closer named).1 followed
  refine ⟨?_, fun same => means_of_normalize? ?_, ⟨ns, by simp [scopes], spelled, fun named => ?_⟩,
    fun other => means_iff built, meaningless_iff built, fun opens => ?_, fun strange => ?_⟩
  · rw [ask_typeName_memoryAfter ⟨env, builtins⟩ queries relative context, followed,
      Option.map_some]
  · exact same ▸ leads
  · rw [spelled, walks.eq_below named, QualifiedName.qualify_eq_below relative written]
  · exact (means_iff built).2 (.itself opens)
  · exact (meaningless_iff built).2 fun other leads => strange leads.namesModule

/-- A module with a part that has a part, an alias of the module, an alias in it of its part, and
another module that is declared under the name of the inner part below the first alias. A class
includes the outer part by way of that alias. -/
def forkedDecls : List Declaration :=
  let x := Namespace.root.member "X"
  let a := Namespace.root.member "A"
  let part := x.toNamespace.member "B"
  let throughAlias := a.toNamespace.member "B"
  [.ofModule ⟨x, .ofModule [], [], none⟩,
    .ofModule ⟨part, .ofModule [], [], none⟩,
    .ofModule ⟨part.toNamespace.member "C", .ofModule [], [], none⟩,
    .ofAlias ⟨a, x, .moduleKind, none⟩,
    .ofAlias ⟨x.toNamespace.member "Own", part, .moduleKind, none⟩,
    .ofModule ⟨throughAlias.toNamespace.member "C", .ofModule [], [], none⟩,
    .ofModule ⟨Namespace.root.member "User", .ofClass none, [⟨.included, throughAlias⟩], none⟩]

/-- The environment of `forkedDecls`. -/
def forked : Environment := (Environment.ofDeclarations forkedDecls).toOption.getD ∅

theorem built_forked : Environment.Built forkedDecls forked := .of_ofDeclarations rfl

/-- An alias inside a module is an answer that stands for its target. A part of the module that was
found through an alias of the module stands for nothing, and the part of that part stands for the
other module that is declared under its name. -/
theorem resolved_name_dereferences_forked :
    let x := Namespace.root.member "X"
    let part := x.toNamespace.member "B"
    let own := x.toNamespace.member "Own"
    let throughAlias := (Namespace.root.member "A").toNamespace.member "B"
    let other := throughAlias.toNamespace.member "C"
    let h : Hierarchy := ⟨forked, .standard⟩
    forked.typePath? ⟨⟨false, ["X"]⟩, "Own"⟩ .root = some ⟨own, own⟩ ∧ h.Means own part ∧
      forked.typePath? ⟨⟨false, ["A"]⟩, "B"⟩ .root = some ⟨throughAlias, part⟩ ∧
      h.Meaningless throughAlias ∧
      forked.typePath? ⟨⟨false, ["A", "B"]⟩, "C"⟩ .root =
        some ⟨other, part.toNamespace.member "C"⟩ ∧ h.Means other other := by
  intro x part own throughAlias other h
  have to_own : forked.typePath? ⟨⟨false, ["X"]⟩, "Own"⟩ .root = some ⟨own, own⟩ := by
    decide +kernel
  have to_part : forked.typePath? ⟨⟨false, ["A"]⟩, "B"⟩ .root = some ⟨throughAlias, part⟩ := by
    decide +kernel
  have to_inner : forked.typePath? ⟨⟨false, ["A", "B"]⟩, "C"⟩ .root =
      some ⟨other, part.toNamespace.member "C"⟩ := by
    decide +kernel
  have own_leads : forked.normalize? own = some part := by decide +kernel
  have part_leads : forked.normalize? part = some part := by decide +kernel
  have inner_leads : forked.normalize? (part.toNamespace.member "C") =
      some (part.toNamespace.member "C") := by
    decide +kernel
  obtain ⟨-, means, -⟩ := resolved_name_dereferences built_forked .standard [] .root
    ⟨⟨false, ["X"]⟩, "Own"⟩ (by decide) rfl to_own own_leads
  obtain ⟨-, -, -, -, -, -, meaningless⟩ := resolved_name_dereferences built_forked .standard []
    .root ⟨⟨false, ["A"]⟩, "B"⟩ (by decide) rfl to_part part_leads
  obtain ⟨-, -, -, -, -, itself, -⟩ := resolved_name_dereferences built_forked .standard [] .root
    ⟨⟨false, ["A", "B"]⟩, "C"⟩ (by decide) rfl to_inner inner_leads
  exact ⟨to_own, means rfl, to_part, meaningless (by decide), to_inner, itself (by decide)⟩

/-- What two names reach through an alias of a module stands for itself. Of the two answers, one
stands for nothing, and a class that includes it is reported, and the other stands for another
module that is declared under it. An answer that is the reached alias itself stands for a module,
but as a frame it does not take the module's place for type names, nor for a constant of its own
name. -/
theorem resolved_name_need_not_dereference :
    let x := Namespace.root.member "X"
    let part := x.toNamespace.member "B"
    let inner := part.toNamespace.member "C"
    let own := x.toNamespace.member "Own"
    let throughAlias := (Namespace.root.member "A").toNamespace.member "B"
    let other := throughAlias.toNamespace.member "C"
    let to_part : QualifiedName := ⟨⟨false, ["A"]⟩, "B"⟩
    let to_inner : QualifiedName := ⟨⟨false, ["A", "B"]⟩, "C"⟩
    let to_own : QualifiedName := ⟨⟨false, ["X"]⟩, "Own"⟩
    let h : Hierarchy := ⟨forked, .standard⟩
    let answers (queries : List Query) := (h.transcript queries).map Prod.snd
    (answers [.typeName to_part .root] = [.typeName (some throughAlias)] ∧
      forked.typePath? to_part .root = some ⟨throughAlias, part⟩ ∧
      forked.normalize? part = some part ∧ forked.normalize? throughAlias = none ∧
      .unknownAncestor (Namespace.root.member "User") throughAlias none ∈
        forked.unknownAncestors) ∧
    (answers [.typeName to_inner .root] = [.typeName (some other)] ∧
      forked.typePath? to_inner .root = some ⟨other, inner⟩ ∧
      forked.normalize? inner = some inner ∧ forked.normalize? other = some other ∧
      other ≠ inner) ∧
    answers [.typeName to_own .root] = [.typeName (some own)] ∧
      forked.typePath? to_own .root = some ⟨own, own⟩ ∧ forked.normalize? own = some part ∧
      answers [.typeName ⟨.empty, "C"⟩ ⟨[own]⟩, .typeName ⟨.empty, "C"⟩ ⟨[part]⟩] =
        [.typeName none, .typeName (some inner)] ∧
      answers [.resolve "Own" ⟨[own]⟩, .resolve "Own" ⟨[part]⟩] =
        [.resolution (.found ⟨own, .singleton own, none⟩), .resolution .absent] := by
  intro x part inner own throughAlias other to_part to_inner to_own h answers
  have unknown : .unknownAncestor (Namespace.root.member "User") throughAlias none ∈
      forked.unknownAncestors :=
    Environment.mem_unknownAncestors_iff.2 ⟨⟨_, .classKind, none, [⟨.included, throughAlias⟩], []⟩,
      rfl, by decide, by decide +kernel, rfl⟩
  refine ⟨⟨by decide +kernel, by decide +kernel, by decide +kernel, by decide +kernel, unknown⟩,
    ⟨by decide +kernel, by decide +kernel, by decide +kernel, by decide +kernel, by decide⟩, ?_⟩
  exact ⟨by decide +kernel, by decide +kernel, by decide +kernel, by decide +kernel,
    by decide +kernel⟩

end Hierarchy

end NameResolution
