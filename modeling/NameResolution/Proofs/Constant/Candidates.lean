import Mathlib.Data.List.Induction
import NameResolution.Proofs.Environment.Built
import NameResolution.Proofs.OrderedMap.Growth

/-!
# Candidates

The candidates of a simple name in a table, told from the declarations alone, and what a lookup
among candidates decides.

## Main definitions

* `ConstantTable.distinct` — the constants of a list, each declaration once.

## Main statements

* `ConstantTable.candidates_ofList` — a name's candidates are the distinct constants of that name.
* `Environment.Built.candidates_table` — the table of a namespace is given by the constants of the
  qualified names in it.
* `ConstantTable.lookup_firsts` — the listing of a table shows the first candidate of each name.
-/

namespace NameResolution

/-! ## Deciding among candidates -/

namespace Resolution

variable {name : String} {candidates : List Constant}

theorem ofCandidates_eq_absent_iff : ofCandidates name candidates = .absent ↔ candidates = [] := by
  fun_cases ofCandidates name candidates <;> simp_all

theorem ofCandidates_eq_found_iff {c : Constant} :
    ofCandidates name candidates = .found c ↔ candidates = [c] := by
  fun_cases ofCandidates name candidates <;> simp_all

theorem ofCandidates_eq_ambiguous_iff {conflict : Ambiguity} :
    ofCandidates name candidates = .ambiguous conflict ↔
      conflict = ⟨name, candidates⟩ ∧ 2 ≤ candidates.length := by
  fun_cases ofCandidates name candidates with
  | case1 => simp
  | case2 c => simp
  | case3 candidates none_fits one_fits =>
    have two : 2 ≤ candidates.length := by
      match candidates with
      | [] => exact absurd rfl none_fits
      | [c] => exact absurd rfl (one_fits c)
      | _ :: _ :: _ => simp
    simp [two, eq_comm]

theorem first?_ofCandidates : (ofCandidates name candidates).first? = candidates.head? := by
  fun_cases ofCandidates name candidates <;> rfl

end Resolution

namespace ConstantTable

/-! ## Distinct declarations -/

/-- The constants of a list that differ in name or type, each at its first place. -/
def distinct (constants : List Constant) : List Constant := constants.foldl addCandidate []

theorem sameDeclaration_iff {c d : Constant} :
    c.sameDeclaration d = true ↔ c.name = d.name ∧ c.type = d.type := by
  simp [Constant.sameDeclaration]

theorem distinct_append_singleton (constants : List Constant) (c : Constant) :
    distinct (constants ++ [c]) = addCandidate (distinct constants) c := by
  simp [distinct]

theorem distinct_subset (constants : List Constant) : distinct constants ⊆ constants := by
  induction constants using List.reverseRecOn with
  | nil => exact List.nil_subset _
  | append_singleton constants c ih =>
    rw [distinct_append_singleton, addCandidate]
    split <;> grind

/-- Every constant of the list has its declaration among the distinct ones. -/
theorem exists_mem_distinct {constants : List Constant} {c : Constant} (mem : c ∈ constants) :
    ∃ d ∈ distinct constants, d.name = c.name ∧ d.type = c.type := by
  induction constants using List.reverseRecOn with
  | nil => cases mem
  | append_singleton constants last ih =>
    rw [distinct_append_singleton, addCandidate]
    simp only [List.any_eq_true, sameDeclaration_iff]
    split <;> grind

theorem pairwise_distinct (constants : List Constant) :
    (distinct constants).Pairwise fun c d => ¬(c.name = d.name ∧ c.type = d.type) := by
  induction constants using List.reverseRecOn with
  | nil => exact .nil
  | append_singleton constants c ih =>
    rw [distinct_append_singleton, addCandidate]
    simp only [List.any_eq_true, sameDeclaration_iff]
    split
    · exact ih
    · next fresh =>
      refine List.pairwise_append.2 ⟨ih, List.pairwise_singleton _ _, ?_⟩
      grind

/-- Distinct constants of one name have distinct types. -/
theorem nodup_types_distinct {constants : List Constant} {name : QualifiedName}
    (named : ∀ c ∈ constants, c.name = name) : ((distinct constants).map Constant.type).Nodup := by
  refine List.pairwise_map.2 ((pairwise_distinct constants).imp_of_mem ?_)
  intro c d hc hd differs same
  have hc' := named c (distinct_subset constants hc)
  have hd' := named d (distinct_subset constants hd)
  exact differs ⟨hc'.trans hd'.symm, same⟩

theorem mem_types_distinct {constants : List Constant} {type : TypeExpr} :
    type ∈ (distinct constants).map Constant.type ↔ type ∈ constants.map Constant.type := by
  simp only [List.mem_map]
  constructor
  · rintro ⟨c, mem, rfl⟩
    exact ⟨c, distinct_subset constants mem, rfl⟩
  · rintro ⟨c, mem, rfl⟩
    obtain ⟨d, mem', -, same⟩ := exists_mem_distinct mem
    exact ⟨d, mem', same⟩

/-! ## The candidates of a table -/

theorem candidates_insert (table : ConstantTable) (c : Constant) (name : String) :
    (table.insert c).candidates name =
      if name = c.name.last then addCandidate (table.candidates name) c
      else table.candidates name := by
  simp only [candidates, insert, OrderedMap.find?_upsert]
  split
  · next same => simp [same]
  · rfl

/-- The candidates of a name are the distinct constants whose last component it is. -/
theorem candidates_ofList (constants : List Constant) (name : String) :
    (ofList constants).candidates name = distinct (constants.filter (·.name.last = name)) := by
  induction constants using List.reverseRecOn with
  | nil => rfl
  | append_singleton constants c ih =>
    have step : ofList (constants ++ [c]) = (ofList constants).insert c := by simp [ofList]
    rw [step, candidates_insert, ih, List.filter_append]
    by_cases same : name = c.name.last
    · simp [same, distinct_append_singleton]
    · simp [same, Ne.symm same]

/-! ## The listing of a table -/

theorem keys_firsts_sublist (table : ConstantTable) :
    (table.firsts.map Prod.fst).Sublist table.keys := by
  unfold firsts keys OrderedMap.keys
  induction table.entries.entries with
  | nil => exact .slnil
  | cons entry rest ih =>
    cases first : entry.2.head? with
    | none => simpa [List.filterMap_cons, first] using ih.cons entry.1
    | some c => simpa [List.filterMap_cons, first] using ih

theorem nodup_keys_firsts (table : ConstantTable) : (table.firsts.map Prod.fst).Nodup :=
  table.keys_firsts_sublist.nodup table.entries.nodup_keys

theorem lookup_filterMap_head? {entries : List (String × List Constant)}
    (nodup : (entries.map Prod.fst).Nodup) (name : String) :
    (entries.filterMap fun (n, candidates) => candidates.head?.map (n, ·)).lookup name =
      ((entries.lookup name).getD []).head? := by
  induction entries with
  | nil => rfl
  | cons entry rest ih =>
    obtain ⟨key, candidates⟩ := entry
    obtain ⟨absent, nodupRest⟩ := List.nodup_cons.1 nodup
    have later := ih nodupRest
    by_cases same : name = key
    · subst same
      have missing : rest.lookup name = none := by
        rw [List.lookup_eq_none_iff]
        intro entry mem
        simpa using fun e => absent (List.mem_map.2 ⟨entry, mem, Eq.symm e⟩)
      cases first : candidates.head? with
      | none => simpa [List.filterMap_cons, first, missing] using later
      | some c => simp [first]
    · have differs : (name == key) = false := by simpa using same
      cases first : candidates.head? with
      | none => simpa [List.filterMap_cons, first, List.lookup_cons, differs] using later
      | some c => simpa [List.filterMap_cons, first, List.lookup_cons, differs] using later

theorem lookup_firsts (table : ConstantTable) (name : String) :
    table.firsts.lookup name = table.get? name :=
  lookup_filterMap_head? table.entries.nodup_keys name

end ConstantTable

/-! ## The table of a namespace -/

theorem eq_member_iff {name : QualifiedName} {ns : Namespace} {simple : String} :
    name = ns.member simple ↔ name.container = ns ∧ name.last = simple := by
  cases name
  simp [Namespace.member]

/-- Among names of one namespace, only one has a given last component. -/
theorem filter_flatMap_constants {names : List QualifiedName} {ns : Namespace} {simple : String}
    {constants : QualifiedName → List Constant} (nodup : names.Nodup)
    (inside : ∀ name ∈ names, name.container = ns)
    (named : ∀ name, ∀ c ∈ constants name, c.name = name) :
    (names.flatMap constants).filter (·.name.last = simple) =
      if ns.member simple ∈ names then constants (ns.member simple) else [] := by
  induction names with
  | nil => rfl
  | cons name rest ih =>
    obtain ⟨absent, nodupRest⟩ := List.nodup_cons.1 nodup
    have later := ih nodupRest fun n mem => inside n (List.mem_cons_of_mem _ mem)
    rw [List.flatMap_cons, List.filter_append, later]
    by_cases last : name.last = simple
    · have here : name = ns.member simple := eq_member_iff.2 ⟨inside name List.mem_cons_self, last⟩
      subst here
      have all : (constants (ns.member simple)).filter (·.name.last = simple) =
          constants (ns.member simple) := by
        rw [List.filter_eq_self]
        intro c mem
        simpa [named _ c mem] using last
      simp [all, absent]
    · have differs : ns.member simple ≠ name := fun e => last (e ▸ rfl)
      have none_fits : (constants name).filter (·.name.last = simple) = [] := by
        rw [List.filter_eq_nil_iff]
        intro c mem
        simpa [named _ c mem] using last
      simp [none_fits, differs]

namespace Environment.Built

variable {decls : List Declaration} {env : Environment}

/-- The candidates of a simple name in a namespace are the distinct constants of the qualified
name. -/
theorem candidates_table (built : Built decls env) (ns : Namespace) (simple : String) :
    (env.table ns).candidates simple =
      ConstantTable.distinct (env.constantsNamed (ns.member simple)) := by
  rw [table, ConstantTable.candidates_ofList]
  have nodup : (env.membersOf ns).Nodup := built.nodup_members.filter _
  have inside : ∀ name ∈ env.membersOf ns, name.container = ns := by
    intro name mem
    simpa using (List.mem_filter.1 mem).2
  rw [filter_flatMap_constants nodup inside fun _ _ => name_of_mem_constantsNamed]
  split
  · rfl
  · next absent =>
    have stranger : ns.member simple ∉ env.members := by
      intro mem
      exact absent (List.mem_filter.2 ⟨mem, by simp [Namespace.member]⟩)
    rw [built.constantsNamed_eq_nil stranger]

theorem name_of_mem_candidates (built : Built decls env) {ns : Namespace} {simple : String}
    {c : Constant} (mem : c ∈ (env.table ns).candidates simple) : c.name = ns.member simple := by
  rw [built.candidates_table] at mem
  exact name_of_mem_constantsNamed (ConstantTable.distinct_subset _ mem)

theorem nodup_types_candidates (built : Built decls env) (ns : Namespace) (simple : String) :
    (((env.table ns).candidates simple).map Constant.type).Nodup := by
  rw [built.candidates_table]
  exact ConstantTable.nodup_types_distinct fun _ => name_of_mem_constantsNamed

theorem mem_types_candidates_iff (built : Built decls env) {ns : Namespace} {simple : String}
    {type : TypeExpr} :
    type ∈ ((env.table ns).candidates simple).map Constant.type ↔
      Declares decls (ns.member simple) type := by
  rw [built.candidates_table, ConstantTable.mem_types_distinct, built.mem_types_iff]

/-- A name that some table lists is in the pool. -/
theorem isSome_find?_pool (built : Built decls env) {ns : Namespace} {simple : String}
    (listed : (env.table ns).candidates simple ≠ []) : (env.pool.find? simple).isSome := by
  obtain ⟨c, mem⟩ := List.exists_mem_of_ne_nil _ listed
  obtain ⟨decl, declared, name, -⟩ :=
    built.mem_types_candidates_iff.1 (List.mem_map_of_mem (f := Constant.type) mem)
  have pooled : simple ∈ env.pool.names :=
    built.mem_names_pool_iff.2 ⟨decl, declared, by rw [name]; rfl⟩
  simpa [NamePool.find?, List.isSome_idxOf?] using pooled

end Environment.Built

end NameResolution
