import Mathlib.Data.List.Perm.Subperm
import NameResolution.Proofs.Diagnostic.Ties
import NameResolution.Proofs.Lookup.Tables

/-!
# Clashes

A name may be declared in several sorts: as a class or module, as an alias and as a constant. The
candidates of a table are told apart by their types, and a class and an alias of one name both have
the type of a class object of that name. So only a constant of another type makes the name a tie.
Without one, the declarations pass for one and the same.

## Main definitions

* `Environment.Clashes` — a name is declared in several sorts.
* `Query.tableOf` — the query for the table of a place.

## Main statements

* `Environment.clash_tied_by_types` — which clashes are ties, and what a lookup gives for others.
* `Environment.clash_of_one_type_unreported` — a clash that no lookup and no check shows.
-/

namespace NameResolution

/-- The query for the table of a class or module, or of the root. -/
def Query.tableOf (site : Option QualifiedName) : Query := site.elim .rootTable .childTable

namespace Environment

variable {env : Environment} {decls : List Declaration} {name : QualifiedName}

/-- The name is declared in at least two sorts: as a class or module, as an alias, as a constant. -/
def Clashes (env : Environment) (name : QualifiedName) : Prop :=
  2 ≤ [(env.module? name).isSome, (env.alias? name).isSome,
    !(env.constantDecls name).isEmpty].count true

instance : Decidable (env.Clashes name) := inferInstanceAs (Decidable (_ ≤ _))

theorem Clashes.isModuleName (clash : env.Clashes name) :
    (env.module? name).isSome ∨ (env.alias? name).isSome := by
  by_contra neither
  obtain ⟨unopened, unaliased⟩ := not_or.1 neither
  simp only [Clashes, Bool.eq_false_iff.2 unopened, Bool.eq_false_iff.2 unaliased,
    List.count_cons_of_ne Bool.false_ne_true] at clash
  exact absurd (clash.trans List.count_le_length) (by simp)

/-- The candidates for a clashing name have the type of its class object and the types that it has
as a constant. -/
theorem Clashes.mem_types_candidates {ns : Namespace} {simple : String} {type : TypeExpr}
    (built : Built decls env) (clash : env.Clashes (ns.member simple)) :
    type ∈ ((env.table ns).candidates simple).map Constant.type ↔
      type = .singleton (ns.member simple) ∨
        ∃ d ∈ env.constantDecls (ns.member simple), d.type = type := by
  rw [built.candidates_table, ConstantTable.mem_types_distinct, mem_types_constantsNamed]
  simp [clash.isModuleName]

theorem Clashes.two_le_length_candidates {ns : Namespace} {simple : String}
    (built : Built decls env) (clash : env.Clashes (ns.member simple))
    (foreign : ∃ d ∈ env.constantDecls (ns.member simple),
      d.type ≠ .singleton (ns.member simple)) :
    2 ≤ ((env.table ns).candidates simple).length := by
  obtain ⟨d, declared, differs⟩ := foreign
  have own := (clash.mem_types_candidates built).2 (.inl rfl)
  have other := (clash.mem_types_candidates built).2 (.inr ⟨d, declared, rfl⟩)
  have two : [d.type, .singleton (ns.member simple)].Nodup := by simpa using differs
  have both := List.cons_subset.2 ⟨other, List.cons_subset.2 ⟨own, List.nil_subset _⟩⟩
  simpa using (List.subperm_of_subset two both).length_le

/-- A clash among class objects alone leaves the first source of the name, be it the class or
module, the alias or the constant. -/
theorem Clashes.exists_candidates_eq {ns : Namespace} {simple : String}
    (built : Built decls env) (clash : env.Clashes (ns.member simple))
    (own : ∀ d ∈ env.constantDecls (ns.member simple), d.type = .singleton (ns.member simple)) :
    ∃ c, (env.table ns).candidates simple = [c] ∧ c.type = .singleton (ns.member simple) ∧
      (sources decls (ns.member simple)).head? = some c := by
  have all : ∀ type ∈ (env.constantsNamed (ns.member simple)).map Constant.type,
      type = .singleton (ns.member simple) := by
    intro type mem
    rcases mem_types_constantsNamed.1 mem with ⟨-, rfl⟩ | ⟨d, declared, rfl⟩
    · rfl
    · exact own d declared
  have length : ((env.table ns).candidates simple).length = 1 := by
    have once := built.nodup_types_candidates ns simple
    have some_type := (clash.mem_types_candidates built).2 (.inl rfl)
    have alike : ∀ type ∈ ((env.table ns).candidates simple).map Constant.type,
        type = .singleton (ns.member simple) := by
      rw [built.candidates_table]
      exact fun type mem => all type (ConstantTable.mem_types_distinct.1 mem)
    rw [List.eq_replicate_of_mem alike, List.nodup_replicate, List.length_map] at once
    have positive := List.length_pos_of_mem some_type
    rw [List.length_map] at positive
    omega
  obtain ⟨c, only⟩ := List.length_eq_one_iff.1 length
  have mem : c ∈ (env.table ns).candidates simple := by simp [only]
  have first := (built.lists_table ns).first simple c mem
  rw [← built.constantsNamed_eq_sources] at first ⊢
  have type := all _ (List.mem_map_of_mem (List.mem_of_find?_eq_some first))
  refine ⟨c, only, type, ?_⟩
  cases given : env.constantsNamed (ns.member simple) with
  | nil => simp [given] at first
  | cons d rest =>
    have head : d.type = c.type := (all _ (by simp [given])).trans type.symm
    simpa [given, head] using first

end Environment

namespace Hierarchy

/-- The table of a place is found after whatever queries. -/
theorem ask_tableOf_memoryAfter {h : Hierarchy} {site : Option QualifiedName}
    (known : site ∈ h.environment.sites) (queries : List Query) :
    ((h.ask (.tableOf site)).run (h.memoryAfter queries)).1 =
      .table (some (h.environment.table (siteSpace site))) := by
  refine ask_memoryAfter_eq (fun kin => ?_) queries
  cases site with
  | none => rfl
  | some module =>
    have itself := Environment.normalize?_of_contains (Environment.some_mem_sites.1 known)
    simp only [Query.tableOf, Option.elim_some, answer, childTable?, itself, Option.map_some]
    rfl

end Hierarchy

namespace Environment

/-- A simple name in the root, a class or a module that is declared in several sorts is a tie, with
at least two candidates, and reported when a constant declaration gives it another type than that
of its class object. When none does, the lookup finds the class object at the first of its
declarations, and no tie is reported. -/
theorem clash_tied_by_types {decls : List Declaration} {env : Environment}
    (built : Built decls env) {site : Option QualifiedName} {name : String}
    (known : site ∈ env.sites) (clash : env.Clashes ((siteSpace site).member name))
    (builtins : Builtins) (queries : List Query) :
    let qualified := (siteSpace site).member name
    ∃ table, ((Hierarchy.ask ⟨env, builtins⟩ (.tableOf site)).run
        (Hierarchy.memoryAfter ⟨env, builtins⟩ queries)).1 = .table (some table) ∧
      ((∃ d ∈ env.constantDecls qualified, d.type ≠ .singleton qualified) →
        table.lookup name = .ambiguous (env.tieAt site name) ∧
          2 ≤ (env.tieAt site name).candidates.length ∧
          reportOf (env.tieAt site name) ∈ env.tieReports) ∧
      ((∀ d ∈ env.constantDecls qualified, d.type = .singleton qualified) →
        (∃ c, table.lookup name = .found c ∧ c.type = .singleton qualified ∧
          (sources decls qualified).head? = some c) ∧
          (site, name) ∉ env.ties) := by
  refine ⟨_, Hierarchy.ask_tableOf_memoryAfter known queries, fun foreign => ?_, fun own => ?_⟩
  · have several := clash.two_le_length_candidates built foreign
    refine ⟨Resolution.ofCandidates_eq_ambiguous_iff.2 ⟨rfl, several⟩, several, ?_⟩
    rw [tieReports_eq_map_ties]
    exact List.mem_map.2 ⟨(site, name), mem_ties_iff.2 ⟨known, several⟩, rfl⟩
  · obtain ⟨c, only, type, first⟩ := clash.exists_candidates_eq built own
    refine ⟨⟨c, Resolution.ofCandidates_eq_found_iff.2 only, type, first⟩, fun tied => ?_⟩
    have several := (mem_ties_iff.1 tied).2
    rw [only] at several
    exact absurd several (by simp)

/-- Of two clashing names, the one that is a constant of another type too is a tie. The other is a
class and a constant of the same type. -/
theorem clash_tied_by_types_crowded :
    let m := Namespace.root.member "M"
    crowded.Clashes (m.toNamespace.member "X") ∧
      2 ≤ (crowded.tieAt (some m) "X").candidates.length ∧
      reportOf (crowded.tieAt (some m) "X") ∈ crowded.tieReports ∧
      crowded.Clashes (m.toNamespace.member "Y") ∧ (some m, "Y") ∉ crowded.ties := by
  intro m
  have clash : crowded.Clashes ((siteSpace (some m)).member "X") := by decide +kernel
  have clash' : crowded.Clashes ((siteSpace (some m)).member "Y") := by decide +kernel
  have known : some m ∈ crowded.sites := by decide +kernel
  obtain ⟨_, -, tied, -⟩ := clash_tied_by_types built_crowded known clash .standard []
  obtain ⟨_, -, -, untied⟩ := clash_tied_by_types built_crowded known clash' .standard [.rootTable]
  obtain ⟨-, several, reported⟩ := tied (by decide +kernel)
  exact ⟨clash, several, reported, clash', (untied (by decide +kernel)).2⟩

/-- A class with a constant that has the type of its class object, and an alias of it that has the
name of another class. -/
def concealed : Environment :=
  let a := Namespace.root.member "A"
  let x := a.toNamespace.member "X"
  let y := a.toNamespace.member "Y"
  (ofDeclarations [.ofModule ⟨a, .ofModule [], [], none⟩,
    .ofModule ⟨x, .ofClass none, [], none⟩,
    .ofConstant ⟨x, .singleton x, none⟩,
    .ofModule ⟨y, .ofClass none, [], none⟩,
    .ofAlias ⟨y, x, .classKind, none⟩]).toOption.getD ∅

/-- Both names of `concealed` that have several sorts are found without a tie, and the environment
passes its check. -/
theorem clash_of_one_type_unreported :
    let a := Namespace.root.member "A"
    let x := a.toNamespace.member "X"
    let y := a.toNamespace.member "Y"
    let ask (query : Query) := ((Hierarchy.ask ⟨concealed, .standard⟩ query).run ∅).1
    concealed.Clashes x ∧ concealed.Clashes y ∧
      ask (.constantAt x) = .resolution (.found ⟨x, .singleton x, none⟩) ∧
      ask (.constantAt y) = .resolution (.found ⟨y, .singleton y, none⟩) ∧
      concealed.check = [] := by
  decide +kernel

end Environment

end NameResolution
