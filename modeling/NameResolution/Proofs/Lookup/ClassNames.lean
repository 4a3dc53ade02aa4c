import NameResolution.Proofs.Ancestry.Reach
import NameResolution.Proofs.Lists
import NameResolution.Proofs.Lookup.Members
import NameResolution.Proofs.Lookup.Toplevel
import NameResolution.Proofs.Lookup.TypePath

/-!
# Class names as type names and as constants

A simple name that only classes, modules and aliases have can be looked up as a type name and as a
bare constant name. Both lookups go through the enclosing frames and end at the root. On the way
from the frames to the root, and behind the root, only the lookup of constants goes through
ancestors.

## Main definitions

* `NamesOnlyModules` — no constant, interface or type alias has the simple name.

## Main statements

* `Hierarchy.opened?_of_mem_kin` — the ancestors that a run tells of are classes and modules.
* `Hierarchy.resolve_agrees_with_typeName` — what the two lookups answer in one run.
-/

namespace NameResolution

/-- Whatever is declared under the simple name is a class, a module or an alias of one. -/
def NamesOnlyModules (decls : List Declaration) (simple : String) : Prop :=
  ∀ decl ∈ decls, decl.name.last = simple → decl.namesModule

/-! ## One namespace -/

namespace NamesOnlyModules

variable {decls : List Declaration} {env : Environment} {simple : String} {ns : Namespace}
  {spaces : List Namespace}

theorem namesType_iff (only : NamesOnlyModules decls simple) :
    NamesType decls (ns.member simple) ↔ NamesModule decls (ns.member simple) := by
  refine ⟨fun ⟨decl, mem, named, _⟩ => ⟨decl, mem, named, ?_⟩, NamesModule.namesType⟩
  exact only decl mem (congrArg QualifiedName.last named)

theorem declares_iff (only : NamesOnlyModules decls simple) {type : TypeExpr} :
    Declares decls (ns.member simple) type ↔
      NamesModule decls (ns.member simple) ∧ type = .singleton (ns.member simple) := by
  constructor
  · rintro ⟨decl, mem, named, given⟩
    have names := only decl mem (congrArg QualifiedName.last named)
    rw [decl.givenType?_of_namesModule names, named] at given
    exact ⟨⟨decl, mem, named, names⟩, (Option.some.inj given).symm⟩
  · rintro ⟨⟨decl, mem, named, names⟩, rfl⟩
    exact ⟨decl, mem, named, named ▸ decl.givenType?_of_namesModule names⟩

theorem lookup_eq_absent_iff (only : NamesOnlyModules decls simple)
    (built : Environment.Built decls env) :
    (env.table ns).lookup simple = .absent ↔ ¬NamesModule decls (ns.member simple) := by
  rw [built.lookup_eq_absent_iff]
  simp [only.declares_iff]

/-- A class, module or alias is found, with the type of its class object. -/
theorem exists_lookup_eq_found (only : NamesOnlyModules decls simple)
    (built : Environment.Built decls env) (names : NamesModule decls (ns.member simple)) :
    ∃ c, (env.table ns).lookup simple = .found c ∧ c.name = ns.member simple ∧
      c.type = .singleton (ns.member simple) := by
  have declared : Declares decls (ns.member simple) (.singleton (ns.member simple)) :=
    only.declares_iff.2 ⟨names, rfl⟩
  have one_type : OneType decls (ns.member simple) := fun _ _ first second =>
    (only.declares_iff.1 first).2.trans (only.declares_iff.1 second).2.symm
  obtain ⟨c, found, named, given⟩ := (built.settledBy_lookup declared).one one_type
  exact ⟨c, found, named, (only.declares_iff.1 (named ▸ given)).2⟩

/-! ## Namespaces in order -/

/-- The first namespace that has the name decides. -/
theorem judge_of_first (only : NamesOnlyModules decls simple) (built : Environment.Built decls env)
    {before : List Namespace}
    (closer : ∀ space ∈ before, ¬NamesModule decls (space.member simple)) (after : List Namespace)
    (names : NamesModule decls (ns.member simple)) :
    ∃ c, env.judge simple (before ++ ns :: after) = .found c ∧ c.name = ns.member simple ∧
      c.type = .singleton (ns.member simple) := by
  obtain ⟨c, found, rest⟩ := only.exists_lookup_eq_found built names
  refine ⟨c, ?_, rest⟩
  rw [Environment.judge_eq_lookup, found]
  · exact fun space mem => (only.lookup_eq_absent_iff built).2 (closer space mem)
  · simp [found]

/-- Namespaces never tie for the name. -/
theorem judge_cases (only : NamesOnlyModules decls simple) (built : Environment.Built decls env)
    (spaces : List Namespace) :
    env.judge simple spaces = .absent ∨
      ∃ c, env.judge simple spaces = .found c ∧ NamesModule decls c.name ∧
        c.type = .singleton c.name := by
  refine or_iff_not_imp_left.2 fun present => ?_
  obtain ⟨ns, -, same⟩ := Environment.exists_lookup_eq_judge present
  have names : NamesModule decls (ns.member simple) := by
    by_contra strange
    exact present (same.symm.trans ((only.lookup_eq_absent_iff built).2 strange))
  obtain ⟨c, found, named, type⟩ := only.exists_lookup_eq_found built names
  exact ⟨c, same.symm.trans found, named ▸ names, named ▸ type⟩

/-- Namespaces that lack the name may be left out. -/
theorem judge_append_of_absent (only : NamesOnlyModules decls simple)
    (built : Environment.Built decls env)
    (lacking : ∀ space ∈ spaces, ¬NamesModule decls (space.member simple))
    (later : List Namespace) : env.judge simple (spaces ++ later) = env.judge simple later := by
  rw [Environment.judge_append, Environment.judge_eq_absent_iff.2, Resolution.absent_orElse]
  exact fun space mem => (only.lookup_eq_absent_iff built).2 (lacking space mem)

theorem judge_append_cons_of_absent (only : NamesOnlyModules decls simple)
    (built : Environment.Built decls env) (lacking : ¬NamesModule decls (ns.member simple))
    (spaces later : List Namespace) :
    env.judge simple (spaces ++ ns :: later) = env.judge simple (spaces ++ later) := by
  rw [Environment.judge_append, Environment.judge, (only.lookup_eq_absent_iff built).2 lacking,
    Resolution.absent_orElse, ← Environment.judge_append]

/-- Of some modules and a namespace behind them that has the name, the first module that has it too
decides, or else the namespace. -/
theorem judge_of_modules (only : NamesOnlyModules decls simple)
    (built : Environment.Built decls env) (modules : List QualifiedName)
    (names : NamesModule decls (ns.member simple)) (later : List Namespace) :
    ∃ c, env.judge simple (modules.map QualifiedName.toNamespace ++ ns :: later) = .found c ∧
      NamesModule decls c.name ∧ c.type = .singleton c.name ∧
      ((∀ m ∈ modules, ¬NamesModule decls (m.toNamespace.member simple)) →
        c.name = ns.member simple) ∧
      ∀ before m after, modules = before ++ m :: after →
        (∀ closer ∈ before, ¬NamesModule decls (closer.toNamespace.member simple)) →
        NamesModule decls (m.toNamespace.member simple) → c.name = m.toNamespace.member simple := by
  have present :
      env.judge simple (modules.map QualifiedName.toNamespace ++ ns :: later) ≠ .absent := by
    intro absent
    have lacking := Environment.judge_eq_absent_iff.1 absent ns (by simp)
    exact (only.lookup_eq_absent_iff built).1 lacking names
  obtain ⟨c, found, declared, type⟩ := (only.judge_cases built _).resolve_left present
  refine ⟨c, found, declared, type, fun lacking => ?_, ?_⟩
  · have beyond : ∀ space ∈ modules.map QualifiedName.toNamespace,
        ¬NamesModule decls (space.member simple) := by simpa using lacking
    obtain ⟨d, found', named, -⟩ := only.judge_of_first built beyond later names
    obtain rfl := Resolution.found.inj (found.symm.trans found')
    exact named
  · rintro before m after rfl closer here
    have beyond : ∀ space ∈ before.map QualifiedName.toNamespace,
        ¬NamesModule decls (space.member simple) := by simpa using closer
    rw [List.map_append, List.map_cons, List.append_assoc, List.cons_append] at found
    obtain ⟨d, found', named, -⟩ := only.judge_of_first built beyond _ here
    obtain rfl := Resolution.found.inj (found.symm.trans found')
    exact named

end NamesOnlyModules

namespace Hierarchy

variable {h : Hierarchy} {kin : Kinship} {decls : List Declaration} {simple : String}
  {context : Context}

/-! ## Where constants are looked for -/

theorem opened?_of_opens (built : Environment.Built decls h.environment) {name : QualifiedName}
    (opens : Opens decls name) : h.opened? name = some name.toNamespace := by
  rw [opened?, built.normalize?_eq_some_iff.2 (.itself opens), Option.map_some]

/-- Declared frames open their own namespaces. -/
theorem filterMap_opened?_frames (built : Environment.Built decls h.environment)
    (frames : ∀ frame ∈ context.frames, Opens decls frame) :
    context.frames.filterMap h.opened? = context.frames.map QualifiedName.toNamespace := by
  rw [← List.filterMap_eq_map]
  exact List.filterMap_congr fun frame mem => opened?_of_opens built (frames frame mem)

/-- The ancestors that a memory knows are declared classes and modules. -/
theorem opened?_of_mem_kin {m : Memory} (coherent : m.Coherent h) {name other : QualifiedName}
    {line : List QualifiedName} (known : m.kin h name = some line) (mem : other ∈ line) :
    h.opened? other = some other.toNamespace := by
  obtain ⟨target, leads, found⟩ := Option.bind_eq_some_iff.1 known
  have reaches := coherent.lineages.within target line found other mem
  have declared := reaches.declared (Environment.contains_of_normalize? leads)
  rw [opened?, Environment.normalize?_of_contains declared, Option.map_some]

theorem filterMap_opened?_ownAncestors {queries : List Query}
    (asked_kin : ∀ n ∈ context.innermost?.toList ++ [h.builtins.object],
      (.ancestors n, .ancestors (kin n)) ∈ h.transcript queries) :
    (h.ownAncestors kin context).filterMap h.opened? =
      (h.ownAncestors kin context).map QualifiedName.toNamespace := by
  rw [← List.filterMap_eq_map]
  refine List.filterMap_congr fun module mem => ?_
  unfold ownAncestors at mem
  split at mem
  · cases mem
  · next frame innermost =>
    have told := kin_of_mem_transcript (asked_kin frame (by simp [innermost]))
    cases line? : kin frame with
    | none => simp [line?] at mem
    | some line =>
      have mem : module ∈ line := by simpa [line?] using List.mem_of_mem_filter mem
      exact opened?_of_mem_kin (h.coherent_memoryAfter queries) (told.trans line?) mem

/-! ## Where type names are looked for -/

/-- The closest scope that has the name decides. -/
theorem typeMeaning_of_first (only : NamesOnlyModules decls simple)
    (built : Environment.Built decls h.environment) {before after : List Namespace} {ns : Namespace}
    (scopes : context.typeScopes = before ++ ns :: after)
    (closer : ∀ scope ∈ before, ¬NamesModule decls (scope.member simple))
    (here : NamesModule decls (ns.member simple)) :
    h.typeMeaning (Namespace.empty.member simple) context = some (ns.member simple) := by
  rw [typeMeaning, built.typePath?_eq_walk? rfl scopes
    (fun scope mem => mt only.namesType_iff.1 (closer scope mem)) here.namesType]
  rfl

theorem typeMeaning_of_nowhere (only : NamesOnlyModules decls simple)
    (built : Environment.Built decls h.environment)
    (nowhere : ∀ ns ∈ context.typeScopes, ¬NamesModule decls (ns.member simple)) :
    h.typeMeaning (Namespace.empty.member simple) context = none := by
  have written : (Namespace.empty.member simple).components = [simple] := rfl
  rw [typeMeaning, built.typePath?_eq_none written fun ns mem =>
    mt only.namesType_iff.1 (nowhere ns mem)]
  rfl

/-- What frames lack is left to the root. -/
theorem typeMeaning_of_frames_lacking (only : NamesOnlyModules decls simple)
    (built : Environment.Built decls h.environment)
    (beyond : ∀ ns ∈ context.frames.map QualifiedName.toNamespace,
      ¬NamesModule decls (ns.member simple)) :
    h.typeMeaning (Namespace.empty.member simple) context =
      if NamesModule decls (Namespace.root.member simple) then some (Namespace.root.member simple)
      else none := by
  split
  · next atRoot => exact typeMeaning_of_first only built rfl beyond atRoot
  · next lacking =>
    refine typeMeaning_of_nowhere only built ?_
    exact List.forall_mem_append.2 ⟨beyond, List.forall_mem_singleton.2 lacking⟩

/-- Both lookups stop at the closest frame that has the name, short of the root. -/
theorem exists_found_of_framed (only : NamesOnlyModules decls simple)
    (built : Environment.Built decls h.environment)
    (framed : ∃ ns ∈ context.frames.map QualifiedName.toNamespace,
      NamesModule decls (ns.member simple))
    (later : List Namespace) :
    ∃ c, h.typeMeaning (Namespace.empty.member simple) context = some c.name ∧
      h.environment.judge simple (context.frames.map QualifiedName.toNamespace ++ later) =
        .found c ∧
      NamesModule decls c.name ∧ c.type = .singleton c.name ∧
      c.name ≠ Namespace.root.member simple := by
  obtain ⟨before, ns, after, split, closer, here⟩ := exists_first framed
  obtain ⟨c, found, named, type⟩ := only.judge_of_first built closer (after ++ later) here
  have scopes : context.typeScopes = before ++ ns :: (after ++ [.root]) := by
    rw [Context.typeScopes, split, List.append_assoc, List.cons_append]
  refine ⟨c, ?_, ?_, named ▸ here, named ▸ type, ?_⟩
  · rw [typeMeaning_of_first only built scopes closer here, named]
  · rw [split, List.append_assoc, List.cons_append, found]
  · obtain ⟨frame, -, rfl⟩ : ∃ frame ∈ context.frames, frame.toNamespace = ns :=
      List.mem_map.1 (split ▸ by simp)
    simp [named, Namespace.member, QualifiedName.toNamespace, Namespace.append, Namespace.root]

/-! ## Both lookups -/

/-- Let a simple name be that of classes, modules and aliases only, and let all frames be declared
classes and modules, the innermost one of another last component. If the name means something as a
type name, the same declaration is found as a constant, except that a root declaration is hidden by
the first ancestor of the innermost frame, less the implicit ones, that has the name too. If it
means nothing as a type name, the lookup as a constant does not fail, and at most finds a class,
module or alias directly in one of those ancestors, in the object class or in what is above it. -/
theorem resolve_agrees_with_typeName {decls : List Declaration} {env : Environment}
    (built : Environment.Built decls env) (builtins : Builtins) (queries : List Query)
    (context : Context) (simple : String) (kin : Kinship) {meaning? : Option QualifiedName}
    {resolved : Answer}
    (asked_type : (.typeName (Namespace.empty.member simple) context, .typeName meaning?) ∈
      transcript ⟨env, builtins⟩ queries)
    (asked : (.resolve simple context, resolved) ∈ transcript ⟨env, builtins⟩ queries)
    (asked_kin : ∀ n ∈ context.innermost?.toList ++ [builtins.object],
      (.ancestors n, .ancestors (kin n)) ∈ transcript ⟨env, builtins⟩ queries)
    (only : NamesOnlyModules decls simple) (frames : ∀ frame ∈ context.frames, Opens decls frame)
    (foreign : ∀ frame ∈ context.innermost?, frame.last ≠ simple) :
    let own := ownAncestors ⟨env, builtins⟩ kin context
    let names (module : QualifiedName) := NamesModule decls (module.toNamespace.member simple)
    (∀ meaning, meaning? = some meaning →
      ∃ c, resolved = .resolution (.found c) ∧ NamesModule decls c.name ∧
        c.type = .singleton c.name ∧
        (¬(meaning = Namespace.root.member simple ∧ ∃ m ∈ own, names m) → c.name = meaning) ∧
        ∀ before m after, meaning = Namespace.root.member simple → own = before ++ m :: after →
          (∀ closer ∈ before, ¬names closer) → names m →
            c.name = m.toNamespace.member simple) ∧
    (meaning? = none →
      resolved = .resolution .absent ∨
        ∃ c, resolved = .resolution (.found c) ∧ NamesModule decls c.name ∧
          c.type = .singleton c.name ∧
          DeclaredAmong ⟨env, builtins⟩ (own ++ objectModules ⟨env, builtins⟩ kin) c) := by
  intro own names
  have told := eq_judge_searchOrder built asked asked_kin
  rw [searchOrder_of_foreign foreign, filterMap_opened?_frames built frames,
    filterMap_opened?_ownAncestors asked_kin] at told
  obtain rfl : meaning? = typeMeaning ⟨env, builtins⟩ (Namespace.empty.member simple) context :=
    Answer.typeName.inj (eq_answer_of_mem_transcript asked_type)
  by_cases framed : ∃ ns ∈ context.frames.map QualifiedName.toNamespace,
      NamesModule decls (ns.member simple)
  · obtain ⟨c, meaning, found, declared, type, inside⟩ :=
      exists_found_of_framed (h := ⟨env, builtins⟩) only built framed _
    rw [meaning]
    refine ⟨fun _ given => ?_, by simp⟩
    obtain rfl := Option.some.inj given
    exact ⟨c, told.trans (congrArg _ found), declared, type, fun _ => rfl,
      fun _ _ _ outside => absurd outside inside⟩
  have beyond : ∀ ns ∈ context.frames.map QualifiedName.toNamespace,
      ¬NamesModule decls (ns.member simple) := fun ns mem here => framed ⟨ns, mem, here⟩
  rw [only.judge_append_of_absent built beyond] at told
  rw [typeMeaning_of_frames_lacking only built beyond]
  split
  · -- The type name means the root declaration; ancestors come before it.
    next atRoot =>
    obtain ⟨c, found, declared, type, fallback, first⟩ := only.judge_of_modules built own atRoot _
    refine ⟨fun _ given => ⟨c, told.trans (congrArg _ found), declared, type, fun alone => ?_,
      fun before m after _ => first before m after⟩, by simp⟩
    obtain rfl := Option.some.inj given
    exact fallback fun m mem here => alone ⟨rfl, m, mem, here⟩
  · -- The type name means nothing, and the root does not count as a constant either.
    next lacking =>
    refine ⟨by simp, fun _ => ?_⟩
    rw [only.judge_append_cons_of_absent built lacking, ← filterMap_opened?_ownAncestors asked_kin,
      ← List.filterMap_append] at told
    refine (only.judge_cases built _).imp (fun absent => told.trans (congrArg _ absent)) ?_
    rintro ⟨c, found, declared, type⟩
    refine ⟨c, told.trans (congrArg _ found), declared, type, ?_⟩
    exact declaredAmong_of_mem_candidates built (by rw [found]; exact List.mem_singleton_self c)

/-- Declarations in which a class includes a module with a part of a name that a class at the root
has as well. -/
def twoPartsDecls : List Declaration :=
  let m := Namespace.root.member "M"
  [.ofModule ⟨m, .ofModule [], [], none⟩,
    .ofModule ⟨m.toNamespace.member "Part", .ofClass none, [], none⟩,
    .ofModule ⟨Namespace.root.member "Part", .ofClass none, [], none⟩,
    .ofModule ⟨Namespace.root.member "User", .ofClass none, [⟨.included, m⟩], none⟩]

/-- The environment of `twoPartsDecls`. -/
def twoParts : Environment := (Environment.ofDeclarations twoPartsDecls).toOption.getD ∅

theorem built_twoParts : Environment.Built twoPartsDecls twoParts := .of_ofDeclarations rfl

/-- Inside the class, the type name means the class at the root, but the constant is the included
one. -/
theorem resolve_agrees_with_typeName_twoParts :
    let m := Namespace.root.member "M"
    let user := Namespace.root.member "User"
    let part : QualifiedName := Namespace.empty.member "Part"
    let queries := [.ancestors user, .ancestors Builtins.standard.object, .typeName part ⟨[user]⟩,
      .resolve "Part" ⟨[user]⟩]
    let inner := m.toNamespace.member "Part"
    let found : Constant := ⟨inner, .singleton inner, none⟩
    transcript ⟨twoParts, .standard⟩ queries =
        [(.ancestors user, .ancestors (some [user, m])),
          (.ancestors Builtins.standard.object, .ancestors none),
          (.typeName part ⟨[user]⟩, .typeName (some (Namespace.root.member "Part"))),
          (.resolve "Part" ⟨[user]⟩, .resolution (.found found))] ∧
      NamesModule twoPartsDecls found.name ∧ found.name = inner := by
  intro m user part queries inner found
  have run : transcript ⟨twoParts, .standard⟩ queries =
      [(.ancestors user, .ancestors (some [user, m])),
        (.ancestors Builtins.standard.object, .ancestors none),
        (.typeName part ⟨[user]⟩, .typeName (some (Namespace.root.member "Part"))),
        (.resolve "Part" ⟨[user]⟩, .resolution (.found found))] := by
    decide +kernel
  let kin : Kinship := fun name => if name = user then some [user, m] else none
  obtain ⟨agree, -⟩ := resolve_agrees_with_typeName built_twoParts .standard queries ⟨[user]⟩ "Part"
    kin (by rw [run]; exact .tail _ (.tail _ (.head _)))
    (by rw [run]; exact .tail _ (.tail _ (.tail _ (.head _))))
    (List.forall_mem_cons.2 ⟨by rw [run]; exact .head _,
      List.forall_mem_singleton.2 (by rw [run]; exact .tail _ (.head _))⟩)
    (by unfold NamesOnlyModules; decide) (List.forall_mem_singleton.2 (by decide)) (by decide)
  obtain ⟨c, same, declared, -, -, first⟩ := agree _ rfl
  obtain rfl := Resolution.found.inj (Answer.resolution.inj same)
  refine ⟨run, declared, first [user] m [] rfl ?_ ?_ ?_⟩
  · decide +kernel
  · exact List.forall_mem_singleton.2 (by decide)
  · decide

end Hierarchy

end NameResolution
