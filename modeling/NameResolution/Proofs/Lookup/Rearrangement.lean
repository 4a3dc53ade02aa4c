import NameResolution.Proofs.Diagnostic.Ties
import NameResolution.Proofs.Environment.Agreement
import NameResolution.Proofs.Lookup.Mirror

/-!
# The order of declarations

Declarations of different names may come in any order. Whatever can be asked of the environment is
answered the same, locations and ties included, and even where ancestry is cyclic. Only the order
in which listings and reports enumerate things can differ.

## Main statements

* `Environment.Agrees.perm_diagnostics` — what is reported does not depend on the order.
* `Environment.same_answers_of_rearranges` — nor does what is answered.
-/

namespace NameResolution

namespace Environment

variable {decls decls' : List Declaration} {env env' : Environment}

/-! ## Tables -/

theorem Agrees.same_table (agrees : env.Agrees env') (built : Built decls env)
    (built' : Built decls' env') (ns : Namespace) : (env.table ns).Same (env'.table ns) := by
  intro simple
  rw [built.candidates_table, built'.candidates_table, constantsNamed_congr (agrees _)]

/-! ## Reports -/

theorem Agrees.perm_unknownAncestors (agrees : env.Agrees env') :
    env.unknownAncestors.Perm env'.unknownAncestors := by
  simp only [unknownAncestors, agrees.sameModules.normalize?_eq]
  exact agrees.sameModules.perm_modules.flatMap_right _

theorem Agrees.perm_danglingAliases (agrees : env.Agrees env') :
    env.danglingAliases.Perm env'.danglingAliases := by
  simp only [danglingAliases, agrees.sameModules.normalize?_eq]
  exact (agrees.sameModules.perm_aliases.filter _).map _

theorem Agrees.perm_ties (agrees : env.Agrees env')
    (tables : ∀ ns, (env.table ns).Same (env'.table ns)) : env.ties.Perm env'.ties := by
  refine (List.perm_ext_iff_of_nodup env.nodup_ties env'.nodup_ties).2 ?_
  rintro ⟨site, name⟩
  have sites : site ∈ env.sites ↔ site ∈ env'.sites := by
    cases site with
    | none => exact iff_of_true List.mem_cons_self List.mem_cons_self
    | some module => rw [some_mem_sites, some_mem_sites, agrees.sameModules.module?_eq]
  rw [mem_ties_iff, mem_ties_iff, sites, tables]

theorem map_toDiagnostic_ambiguousConstants (env : Environment) :
    env.ambiguousConstants.map Finding.toDiagnostic =
      env.ties.map fun tie => reportOf (env.tieAt tie.1 tie.2) := by
  rw [← tieReports_eq_map_ambiguousConstants, tieReports_eq_map_ties]

theorem Agrees.perm_diagnostics (agrees : env.Agrees env')
    (tables : ∀ ns, (env.table ns).Same (env'.table ns)) :
    (env.check.map Finding.toDiagnostic).Perm (env'.check.map Finding.toDiagnostic) := by
  have tie_eq : env.tieAt = env'.tieAt := by
    funext site name
    rw [tieAt, tieAt, tables]
  simp only [check, List.map_append, map_toDiagnostic_ambiguousConstants, tie_eq]
  exact ((agrees.perm_unknownAncestors.map _).append (agrees.perm_danglingAliases.map _)).append
    ((agrees.perm_ties tables).map _)

/-! ## Answers -/

theorem Agrees.alike (agrees : env.Agrees env')
    (tables : ∀ ns, (env.table ns).Same (env'.table ns)) (builtins : Builtins) :
    Hierarchy.Alike ⟨env, builtins⟩ ⟨env', builtins⟩ where
  builtins := rfl
  normalize? := agrees.sameModules.normalize?_eq
  isClass name := by rw [agrees.sameModules.module?_eq]
  ancestors? := Hierarchy.ancestors?_eq_of_sameModules agrees.sameModules builtins
  table := tables

theorem pooled_of_rearranges (rearranged : Rearranges decls decls') (built : Built decls env)
    (built' : Built decls' env') (simple : String) :
    (env.pool.find? simple).isSome = (env'.pool.find? simple).isSome := by
  rw [Bool.eq_iff_iff, built.isSome_find?_pool_iff, built'.isSome_find?_pool_iff]
  simp only [rearranged.perm.mem_iff]

/-- Two orders of the same declarations are both accepted or both refused, as long as the
declarations of each name keep their order. When they are accepted, aliases lead to the same
classes and modules, every query is answered the same, whether nothing was asked before or the same
queries were, and the same diagnostics are reported in some order. -/
theorem same_answers_of_rearranges {decls decls' : List Declaration}
    (rearranged : Rearranges decls decls') :
    ((∃ env, ofDeclarations decls = .ok env) ↔ ∃ env', ofDeclarations decls' = .ok env') ∧
    ∀ env env', ofDeclarations decls = .ok env → ofDeclarations decls' = .ok env' →
      (∀ name, env.normalize? name = env'.normalize? name) ∧
      (∀ builtins queries query, Answer.Same
        ((Hierarchy.ask ⟨env, builtins⟩ query).run
          (Hierarchy.memoryAfter ⟨env, builtins⟩ queries)).1
        ((Hierarchy.ask ⟨env', builtins⟩ query).run
          (Hierarchy.memoryAfter ⟨env', builtins⟩ queries)).1) ∧
      (env.check.map Finding.toDiagnostic).Perm (env'.check.map Finding.toDiagnostic) := by
  refine ⟨rearranged.exists_ofDeclarations_iff, fun env env' accepted accepted' => ?_⟩
  have built := Built.of_ofDeclarations accepted
  have built' := Built.of_ofDeclarations accepted'
  have agrees : env.Agrees env' := rearranged.stored_eq built built'
  have tables := agrees.same_table built built'
  have pooled := pooled_of_rearranges rearranged built built'
  refine ⟨agrees.sameModules.normalize?_eq, fun builtins queries query => ?_,
    agrees.perm_diagnostics tables⟩
  exact (agrees.alike tables builtins).same_ask_memoryAfter pooled
    (fun name context => agrees.typePath?_eq name context pooled) queries query

/-- The classes of a cycle move behind a class that was declared after them. What the cycle makes
of a name still depends on what was asked before, and on nothing else. -/
theorem same_answers_of_rearranges_entangled :
    let a := Namespace.root.member "A"
    let b := Namespace.root.member "B"
    let x := b.toNamespace.member "X"
    let moved := entangledDecls.drop 4 ++ entangledDecls.take 4
    Rearranges entangledDecls moved ∧ ∃ env', ofDeclarations moved = .ok env' ∧
      entangled.modules.keys ≠ env'.modules.keys ∧
      ((Hierarchy.ask ⟨env', .standard⟩ (.resolve "X" ⟨[a]⟩)).run ∅).1 =
        .resolution (.ambiguous ⟨"X", [⟨x, .singleton a, none⟩, ⟨x, .singleton b, none⟩]⟩) ∧
      ((Hierarchy.ask ⟨env', .standard⟩ (.resolve "X" ⟨[a]⟩)).run
        (Hierarchy.memoryAfter ⟨env', .standard⟩ [.ancestors b])).1 = .resolution .absent := by
  intro a b x moved
  have rearranged : Rearranges entangledDecls moved := by decide +kernel
  have accepted : ofDeclarations entangledDecls = .ok entangled := rfl
  obtain ⟨both, same⟩ := same_answers_of_rearranges rearranged
  obtain ⟨env', accepted'⟩ := both.1 ⟨entangled, accepted⟩
  obtain ⟨-, answers, -⟩ := same entangled env' accepted accepted'
  have fresh : ((Hierarchy.ask ⟨entangled, .standard⟩ (.resolve "X" ⟨[a]⟩)).run ∅).1 =
      .resolution (.ambiguous ⟨"X", [⟨x, .singleton a, none⟩, ⟨x, .singleton b, none⟩]⟩) := by
    decide +kernel
  have later : ((Hierarchy.ask ⟨entangled, .standard⟩ (.resolve "X" ⟨[a]⟩)).run
      (Hierarchy.memoryAfter ⟨entangled, .standard⟩ [.ancestors b])).1 = .resolution .absent := by
    decide +kernel
  have fresh' := answers .standard [] (.resolve "X" ⟨[a]⟩)
  have later' := answers .standard [.ancestors b] (.resolve "X" ⟨[a]⟩)
  have keys : entangled.modules.keys ≠ env'.modules.keys := by
    obtain rfl := Except.ok.inj accepted'
    decide +kernel
  exact ⟨rearranged, env', accepted', keys, fresh'.resolution_eq fresh, later'.resolution_eq later⟩

end Environment

end NameResolution
