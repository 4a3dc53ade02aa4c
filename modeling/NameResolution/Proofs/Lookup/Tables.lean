import Mathlib.Data.List.Find
import NameResolution.Proofs.Environment.Merged
import NameResolution.Proofs.Lists
import NameResolution.Proofs.Lookup.Transcript

/-!
# What tables list

The table of a namespace, told from the declarations: which names it lists and in which order, and
which candidates each name has. A class or module, an alias of the same name and its declarations as
a constant are all sources of one name. What they repeat of each other is listed once, at the first
source that gives it.

## Main definitions

* `sources` — what gives a name its types as a constant, in order.
* `ConstantTable.Lists` — a table lists what is declared directly in a namespace.

## Main statements

* `Environment.Built.constantsNamed_eq_sources` — the sources are what an environment stores.
* `Hierarchy.childTable_lists` — every table that a query opens is such a list.
-/

namespace NameResolution

/-! ## Tables of constants -/

namespace ConstantTable

theorem keys_ofList (constants : List Constant) :
    (ofList constants).keys = (constants.map (·.name.last)).eraseDups := by
  induction constants using List.reverseRecOn with
  | nil => rfl
  | append_singleton constants c ih =>
    have step : ofList (constants ++ [c]) = (ofList constants).insert c := by simp [ofList]
    have keys : ((ofList constants).insert c).keys =
        if c.name.last ∈ (ofList constants).keys then (ofList constants).keys
        else (ofList constants).keys ++ [c.name.last] := OrderedMap.keys_upsert ..
    rw [step, keys, ih, List.map_append, List.map_singleton, eraseDups_append_singleton]

/-- The distinct constants of one name have the types of all of them, each once. -/
theorem types_distinct {constants : List Constant} {name : QualifiedName}
    (named : ∀ c ∈ constants, c.name = name) :
    (distinct constants).map Constant.type = (constants.map Constant.type).eraseDups := by
  induction constants using List.reverseRecOn with
  | nil => rfl
  | append_singleton constants c ih =>
    have earlier : ∀ d ∈ constants, d.name = name := fun d mem => named d (by simp [mem])
    have known : (distinct constants).any (·.sameDeclaration c) ↔
        c.type ∈ (distinct constants).map Constant.type := by
      simp only [List.any_eq_true, sameDeclaration_iff, List.mem_map]
      refine exists_congr fun d => and_congr_right fun mem => and_iff_right ?_
      rw [earlier d (distinct_subset _ mem), named c (by simp)]
    rw [distinct_append_singleton, addCandidate, List.map_append, List.map_singleton,
      eraseDups_append_singleton, ← ih earlier]
    by_cases here : c.type ∈ (distinct constants).map Constant.type
    · rw [if_pos (known.2 here), if_pos here]
    · rw [if_neg (mt known.1 here), if_neg here, List.map_append, List.map_singleton]

/-- A distinct constant is the first one of its declaration. -/
theorem find?_of_mem_distinct {constants : List Constant} {c : Constant}
    (mem : c ∈ distinct constants) : constants.find? (·.sameDeclaration c) = some c := by
  induction constants using List.reverseRecOn with
  | nil => cases mem
  | append_singleton constants last ih =>
    rw [distinct_append_singleton, addCandidate] at mem
    rw [List.find?_append]
    split at mem
    · rw [ih mem, Option.some_or]
    · next fresh =>
      rcases List.mem_append.1 mem with old | new
      · rw [ih old, Option.some_or]
      · obtain rfl := List.mem_singleton.1 new
        have unseen : constants.find? (·.sameDeclaration c) = none := by
          refine List.find?_eq_none.2 fun d seen same => fresh ?_
          obtain ⟨e, kept, name, type⟩ := exists_mem_distinct seen
          obtain ⟨name', type'⟩ := sameDeclaration_iff.1 same
          exact List.any_eq_true.2
            ⟨e, kept, sameDeclaration_iff.2 ⟨name.trans name', type.trans type'⟩⟩
        rw [unseen, Option.none_or]
        simp [Constant.sameDeclaration]

end ConstantTable

/-! ## Sources -/

/-- Where the declaration opens a class or module, if that is known. -/
def Declaration.openedAt? : Declaration → Option Location
  | .ofModule decl => decl.location?
  | .ofConstant _ | .ofAlias _ | .ofInterface _ | .ofTypeAlias _ => none

/-- What gives a name its types as a constant: its class or module, at the first place that is known
of it, then its alias, then its declarations as a constant in order. -/
def sources (decls : List Declaration) (name : QualifiedName) : List Constant :=
  let own := decls.filter (·.name = name)
  (if Opens decls name then
      [⟨name, .singleton name, (own.filterMap Declaration.openedAt?).head?⟩] else []) ++
    ((lastAlias? decls name).map fun decl => ⟨name, .singleton name, decl.location?⟩).toList ++
    (own.filterMap Declaration.constant?).map fun decl => ⟨name, decl.type, decl.location?⟩

/-! ## Tables of namespaces -/

/-- The table lists what is declared directly in a namespace, and nothing else. -/
structure ConstantTable.Lists (table : ConstantTable) (decls : List Declaration)
    (ns : Namespace) : Prop where
  /-- Every name stands at its first declaration as a class, module, alias or constant. -/
  keys : table.keys = ((decls.filter fun decl =>
    decl.givenType?.isSome ∧ decl.name.container = ns).map (·.name.last)).eraseDups
  names : ∀ simple, ∀ c ∈ table.candidates simple, c.name = ns.member simple
  types : ∀ simple, (table.candidates simple).map Constant.type =
    ((sources decls (ns.member simple)).map Constant.type).eraseDups
  /-- A candidate is the first source of its type, location included. -/
  first : ∀ simple, ∀ c ∈ table.candidates simple,
    (sources decls (ns.member simple)).find? (·.type = c.type) = some c

namespace Environment.Built

variable {decls : List Declaration} {env : Environment}

theorem constantsNamed_eq_sources (built : Built decls env) (name : QualifiedName) :
    env.constantsNamed name = sources decls name := by
  have stored := built.stored_eq_merged name
  have constants : env.constantDecls name =
      (decls.filter (·.name = name)).filterMap Declaration.constant? :=
    congrArg Stored.constants stored
  have openedAt : Declaration.openedAt? = fun decl => decl.module?.bind ModuleDecl.location? := by
    funext decl
    cases decl <;> rfl
  have locations : ((env.module? name).map ModuleEntry.locations).getD [] =
      (decls.filter (·.name = name)).filterMap Declaration.openedAt? := by
    have merged : env.module? name = ModuleEntry.merged?
        ((decls.filter (·.name = name)).filterMap Declaration.module?) :=
      congrArg Stored.module? stored
    rw [merged, ModuleEntry.locations_merged?, List.filterMap_filterMap, openedAt]
  have opened : (env.module? name).isSome ↔ Opens decls name := built.contains_modules_iff
  rw [constantsNamed, sources, constants, built.alias?_eq, ← locations]
  congr 2
  cases known : env.module? name with
  | none => simp [← opened, known]
  | some entry => simp [← opened, known]

theorem keys_table (built : Built decls env) (ns : Namespace) :
    (env.table ns).keys = ((decls.filter fun decl =>
      decl.givenType?.isSome ∧ decl.name.container = ns).map (·.name.last)).eraseDups := by
  -- All constants of a member have its last component, and it has at least one.
  have blocks : ∀ name ∈ env.membersOf ns, (env.constantsNamed name).map (·.name.last) ≠ [] ∧
      ∀ last ∈ (env.constantsNamed name).map (·.name.last), last = name.last := by
    intro name mem
    obtain ⟨type, declared⟩ := built.mem_members_iff.1 (List.mem_filter.1 mem).1
    obtain ⟨c, given, -⟩ := List.mem_map.1 (built.mem_types_iff.2 declared)
    refine ⟨List.ne_nil_of_mem (List.mem_map_of_mem given), fun last mem => ?_⟩
    obtain ⟨d, given, rfl⟩ := List.mem_map.1 mem
    rw [name_of_mem_constantsNamed given]
  rw [table, ConstantTable.keys_ofList, List.map_flatMap, eraseDups_flatMap blocks,
    built.exact.membersOf_eq, ← eraseDups_filter, eraseDups_map_eraseDups, List.filter_map,
    List.map_map, List.filter_filter]
  simp [Function.comp_def, Bool.and_comm]

theorem lists_table (built : Built decls env) (ns : Namespace) :
    (env.table ns).Lists decls ns where
  keys := built.keys_table ns
  names _ _ := built.name_of_mem_candidates
  types simple := by
    rw [built.candidates_table, ConstantTable.types_distinct fun _ => name_of_mem_constantsNamed,
      built.constantsNamed_eq_sources]
  first simple c mem := by
    rw [built.candidates_table] at mem
    have named := name_of_mem_constantsNamed (ConstantTable.distinct_subset _ mem)
    rw [← built.constantsNamed_eq_sources, ← ConstantTable.find?_of_mem_distinct mem]
    refine List.find?_congr fun d given => Bool.eq_iff_iff.2 ?_
    simp [ConstantTable.sameDeclaration_iff, name_of_mem_constantsNamed given, named]

end Environment.Built

namespace Hierarchy

/-- After whatever queries, the table of a declared class or module lists its direct declarations,
and so does the table of the root. Where nothing is declared directly in a class or module the table
is empty, and only a name that stands for no class or module has none. -/
theorem childTable_lists {decls : List Declaration} {env : Environment}
    (built : Environment.Built decls env) (builtins : Builtins) (queries : List Query) :
    let ask (query : Query) :=
      ((ask ⟨env, builtins⟩ query).run (memoryAfter ⟨env, builtins⟩ queries)).1
    (∀ name, (env.module? name).isSome → ∃ table, ask (.childTable name) = .table (some table) ∧
      table.Lists decls name.toNamespace ∧
      ((∀ decl ∈ decls, decl.givenType?.isSome → decl.name.container ≠ name.toNamespace) →
        table.isEmpty)) ∧
    (∃ table, ask .rootTable = .table (some table) ∧ table.Lists decls .root) ∧
    ∀ name, ask (.childTable name) = .table none ↔ env.normalize? name = none := by
  intro ask
  have opened (name : QualifiedName) : ask (.childTable name) =
      .table ((env.normalize? name).map fun target => env.table target.toNamespace) :=
    ask_memoryAfter_eq (fun _ => rfl) queries
  refine ⟨fun name declared => ?_, ⟨_, ask_memoryAfter_eq (fun _ => rfl) queries,
    built.lists_table .root⟩, fun name => ?_⟩
  · have lists := built.lists_table name.toNamespace
    refine ⟨_, ?_, lists, fun nothing => ?_⟩
    · rw [opened, Environment.normalize?_of_contains declared, Option.map_some]
    · have none_inside : decls.filter (fun decl =>
          decl.givenType?.isSome ∧ decl.name.container = name.toNamespace) = [] := by
        refine List.filter_eq_nil_iff.2 fun decl mem inside => ?_
        obtain ⟨typed, here⟩ := of_decide_eq_true inside
        exact nothing decl mem typed here
      have no_keys := lists.keys
      rw [none_inside] at no_keys
      exact List.isEmpty_iff.2 (List.map_eq_nil_iff.1 no_keys)
  · rw [opened]
    simp

end Hierarchy

/-! ## An example -/

namespace Environment

/-- A place in a file. -/
def crowdedAt (offset : UInt32) : Location := ⟨⟨0⟩, offset, offset, UInt32.le_refl _⟩

/-- A module with a name that is a constant of several types, twice of one of them and once of that
of a class object, and also a class that is reopened and an alias. Beside it stand an interface, a
constant of the same type as its class and, one level below, another constant. -/
def crowdedDecls : List Declaration :=
  let m := Namespace.root.member "M"
  let x := m.toNamespace.member "X"
  let y := m.toNamespace.member "Y"
  [.ofModule ⟨m, .ofModule [], [], none⟩,
    .ofInterface ⟨m.toNamespace.member "_Each", none⟩,
    .ofConstant ⟨x, .singleton x, some (crowdedAt 1)⟩,
    .ofModule ⟨x, .ofClass none, [], none⟩,
    .ofModule ⟨y, .ofClass none, [], none⟩,
    .ofModule ⟨x, .ofClass none, [], some (crowdedAt 2)⟩,
    .ofAlias ⟨x, m, .moduleKind, some (crowdedAt 3)⟩,
    .ofConstant ⟨x, .singleton m, some (crowdedAt 4)⟩,
    .ofConstant ⟨x, .singleton m, some (crowdedAt 5)⟩,
    .ofConstant ⟨y, .singleton y, none⟩,
    .ofConstant ⟨x.toNamespace.member "Z", .singleton x, none⟩]

/-- The environment of `crowdedDecls`. -/
def crowded : Environment := (ofDeclarations crowdedDecls).toOption.getD ∅

theorem built_crowded : Built crowdedDecls crowded := .of_ofDeclarations rfl

end Environment

namespace Hierarchy

/-- The crowded name has two candidates: the class where it was first seen, and the first of the two
equal constants. -/
theorem childTable_lists_crowded :
    let m := Namespace.root.member "M"
    let x := m.toNamespace.member "X"
    ∃ table, ((ask ⟨.crowded, .standard⟩ (.childTable m)).run
        (memoryAfter ⟨.crowded, .standard⟩ [.rootTable])).1 = .table (some table) ∧
      table.keys = ["X", "Y"] ∧
      (table.candidates "X").map Constant.type = [.singleton x, .singleton m] ∧
      ∀ c ∈ table.candidates "X", c.location? =
        some (Environment.crowdedAt (if c.type = .singleton x then 2 else 4)) := by
  intro m x
  obtain ⟨children, -, -⟩ :=
    childTable_lists Environment.built_crowded .standard [.rootTable]
  obtain ⟨table, opened, lists, -⟩ := children m (by decide +kernel)
  have types : (table.candidates "X").map Constant.type = [.singleton x, .singleton m] :=
    (lists.types "X").trans (by decide +kernel)
  refine ⟨table, opened, lists.keys.trans (by decide +kernel), types, fun c mem => ?_⟩
  have first := lists.first "X" c mem
  have known : c.type ∈ (table.candidates "X").map Constant.type := List.mem_map_of_mem mem
  rw [types, List.mem_cons, List.mem_singleton] at known
  rcases known with type | type
  · have source : (sources Environment.crowdedDecls x).find? (·.type = .singleton x) =
        some ⟨x, .singleton x, some (Environment.crowdedAt 2)⟩ := by decide +kernel
    rw [type] at first
    obtain rfl := Option.some.inj (first.symm.trans source)
    rfl
  · have source : (sources Environment.crowdedDecls x).find? (·.type = .singleton m) =
        some ⟨x, .singleton m, some (Environment.crowdedAt 4)⟩ := by decide +kernel
    rw [type] at first
    obtain rfl := Option.some.inj (first.symm.trans source)
    rfl

end Hierarchy

end NameResolution
