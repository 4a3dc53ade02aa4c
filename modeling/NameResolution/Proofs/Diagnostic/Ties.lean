import Mathlib.Data.List.Nodup
import NameResolution.Diagnostic.Check
import NameResolution.Proofs.Lookup.Listing

/-!
# Reported ties

Checking an environment reports each tie once, and what it reports is what lookups run into.

## Main definitions

* `Environment.ties` — the simple names with several candidates, place by place.
* `Environment.reports` — the diagnostics with a given code.
* `Environment.tieReports` — the diagnostics about ties.

## Main statements

* `Environment.tieReports_exact` — the reports are those of the ties, without ties no query is
  answered with one, and each tie is met in its place.
-/

namespace NameResolution

/-! ## Places -/

/-- The namespace of a class or module, or the root. -/
def siteSpace (site : Option QualifiedName) : Namespace := site.elim .root QualifiedName.toNamespace

/-- The context directly in the body of a class or module, or outside all of them. -/
def siteContext (site : Option QualifiedName) : Context := ⟨site.toList⟩

namespace ConstantTable

theorem mem_ambiguities_iff {table : ConstantTable} {conflict : Ambiguity} :
    conflict ∈ table.ambiguities ↔
      conflict.candidates = table.candidates conflict.name ∧
        2 ≤ (table.candidates conflict.name).length := by
  obtain ⟨name, candidates⟩ := conflict
  have stored : (name, candidates) ∈ table.entries.entries ↔
      table.entries.find? name = some candidates := (OrderedMap.find?_eq_some_iff ..).symm
  simp only [ambiguities, List.mem_map, List.mem_filter, decide_eq_true_eq]
  constructor
  · rintro ⟨⟨key, known⟩, ⟨mem, several⟩, same⟩
    obtain ⟨rfl, rfl⟩ := Ambiguity.mk.inj same
    have here : table.candidates key = known := by
      rw [ConstantTable.candidates, stored.1 mem, Option.getD_some]
    exact ⟨here.symm, here ▸ several⟩
  · rintro ⟨rfl, several⟩
    refine ⟨_, ⟨stored.2 ?_, several⟩, rfl⟩
    unfold ConstantTable.candidates at several ⊢
    cases found : table.entries.find? name with
    | none => simp [found] at several
    | some candidates => rfl

theorem nodup_names_ambiguities (table : ConstantTable) :
    (table.ambiguities.map Ambiguity.name).Nodup := by
  rw [ambiguities, List.map_map]
  exact (List.filter_sublist.map _).nodup table.entries.nodup_keys

end ConstantTable

namespace Environment

variable {env : Environment} {decls : List Declaration} {site : Option QualifiedName}
  {name : String}

/-- The root, then all classes and modules. -/
def sites (env : Environment) : List (Option QualifiedName) := none :: env.modules.keys.map some

/-- The simple names with several candidates, each with the place where it has them. -/
def ties (env : Environment) : List (Option QualifiedName × String) :=
  env.sites.flatMap fun site => (env.table (siteSpace site)).ambiguities.map (site, ·.name)

/-- The tie for a name in a place. -/
def tieAt (env : Environment) (site : Option QualifiedName) (name : String) : Ambiguity :=
  ⟨name, (env.table (siteSpace site)).candidates name⟩

/-- The diagnostics with a given code. -/
def reports (env : Environment) (code : String) : List Diagnostic :=
  (env.check.map Finding.toDiagnostic).filter (·.code? = some code)

/-- The diagnostics about ties. -/
def tieReports (env : Environment) : List Diagnostic := env.reports "E0002"

/-! ## The ties -/

theorem some_mem_sites {module : QualifiedName} :
    some module ∈ env.sites ↔ (env.module? module).isSome := by
  simp [sites, module?, OrderedMap.mem_keys_iff]

theorem nodup_sites (env : Environment) : env.sites.Nodup := by
  refine List.nodup_cons.2 ⟨by simp, ?_⟩
  exact env.modules.nodup_keys.map fun _ _ => Option.some.inj

theorem mem_ties_iff :
    (site, name) ∈ env.ties ↔
      site ∈ env.sites ∧ 2 ≤ ((env.table (siteSpace site)).candidates name).length := by
  simp only [ties, List.mem_flatMap, List.mem_map, ConstantTable.mem_ambiguities_iff]
  constructor
  · rintro ⟨_, mem, conflict, ⟨-, several⟩, same⟩
    cases same
    exact ⟨mem, several⟩
  · rintro ⟨mem, several⟩
    exact ⟨site, mem, env.tieAt site name, ⟨rfl, several⟩, rfl⟩

theorem nodup_ties (env : Environment) : env.ties.Nodup := by
  -- Within a place the names differ, and between places the places do.
  refine List.nodup_flatMap.2 ⟨fun site _ => ?_, ?_⟩
  · have names := (env.table (siteSpace site)).nodup_names_ambiguities
    exact List.Nodup.of_map Prod.snd (by simpa [Function.comp_def] using names)
  · refine env.nodup_sites.imp fun {site other} differs => ?_
    rintro tie here there
    obtain ⟨_, -, rfl⟩ := List.mem_map.1 here
    obtain ⟨_, -, same⟩ := List.mem_map.1 there
    exact differs (Prod.mk.inj same).1.symm

/-! ## The reports -/

/-- The diagnostic about a tie stands at its first candidate. -/
def reportOf (conflict : Ambiguity) : Diagnostic :=
  (Finding.ambiguousConstant conflict
    (conflict.candidates.head?.bind Constant.location?)).toDiagnostic

theorem code_of_mem_unknownAncestors {finding : Finding} (mem : finding ∈ env.unknownAncestors) :
    finding.code = "E0004" := by
  obtain ⟨_, -, inner⟩ := List.mem_flatMap.1 mem
  obtain ⟨_, -, rfl⟩ := List.mem_map.1 inner
  rfl

theorem code_of_mem_danglingAliases {finding : Finding} (mem : finding ∈ env.danglingAliases) :
    finding.code = "E0005" := by
  obtain ⟨_, -, rfl⟩ := List.mem_map.1 mem
  rfl

theorem code_of_mem_ambiguousConstants {finding : Finding}
    (mem : finding ∈ env.ambiguousConstants) : finding.code = "E0002" := by
  obtain ⟨_, -, inner⟩ := List.mem_flatMap.1 mem
  obtain ⟨_, -, rfl⟩ := List.mem_map.1 inner
  rfl

theorem filter_code {findings : List Finding} {own : String}
    (coded : ∀ finding ∈ findings, finding.code = own) (code : String) :
    findings.filter (·.code = code) = if own = code then findings else [] := by
  split
  · next same => exact List.filter_eq_self.2 fun finding mem => by simp [coded finding mem, same]
  · next differs =>
    exact List.filter_eq_nil_iff.2 fun finding mem => by simp [coded finding mem, differs]

/-- Each sort of findings has a code of its own. -/
theorem reports_eq_map (env : Environment) (code : String) :
    env.reports code =
      ((if "E0004" = code then env.unknownAncestors else []) ++
        (if "E0005" = code then env.danglingAliases else []) ++
        if "E0002" = code then env.ambiguousConstants else []).map Finding.toDiagnostic := by
  have coded : env.reports code =
      (env.check.filter (·.code = code)).map Finding.toDiagnostic := by
    rw [reports, List.filter_map]
    simp [Function.comp_def, Finding.toDiagnostic]
  rw [coded, check, List.filter_append, List.filter_append,
    filter_code (fun _ => code_of_mem_unknownAncestors),
    filter_code (fun _ => code_of_mem_danglingAliases),
    filter_code (fun _ => code_of_mem_ambiguousConstants)]

theorem tieReports_eq_map_ambiguousConstants (env : Environment) :
    env.tieReports = env.ambiguousConstants.map Finding.toDiagnostic := by
  simp [tieReports, reports_eq_map]

theorem tieReports_eq_map_ties (env : Environment) :
    env.tieReports = env.ties.map fun tie => reportOf (env.tieAt tie.1 tie.2) := by
  have spaces : env.openNamespaces = env.sites.map siteSpace := by
    simp [openNamespaces, sites, siteSpace, Function.comp_def]
  rw [tieReports_eq_map_ambiguousConstants, ambiguousConstants, ties, spaces, List.flatMap_map,
    List.map_flatMap, List.map_flatMap]
  congr 1
  funext site
  rw [List.map_map, List.map_map]
  refine List.map_congr_left fun conflict mem => ?_
  have candidates := (ConstantTable.mem_ambiguities_iff.1 mem).1
  simp [reportOf, tieAt, ← candidates]

end Environment

namespace Hierarchy

variable {h : Hierarchy} {kin : Kinship} {name : String}

/-! ## The lookups -/

/-- Every place where a name is looked for is the root or a class or module. -/
theorem exists_site_of_mem_places {scope : Scope} {ns : Namespace}
    (mem : ns ∈ h.places name scope) : ∃ site ∈ h.environment.sites, siteSpace site = ns := by
  have root : ∃ site ∈ h.environment.sites, siteSpace site = .root :=
    ⟨none, List.mem_cons_self, rfl⟩
  have opened {target : QualifiedName} (mem : ns ∈ (h.opened? target).toList) :
      ∃ site ∈ h.environment.sites, siteSpace site = ns := by
    obtain ⟨module, leads, rfl⟩ := Option.map_eq_some_iff.1 (Option.mem_toList.1 mem)
    have declared := Environment.contains_of_normalize? leads
    exact ⟨some module, Environment.some_mem_sites.2 declared, rfl⟩
  cases scope with
  | root =>
    obtain rfl := List.mem_singleton.1 mem
    exact root
  | inside target => exact opened mem
  | around frame =>
    rw [places] at mem
    split at mem
    · unfold enclosing? at mem
      cases parent : frame.parent? with
      | none =>
        rw [parent] at mem
        obtain rfl := List.mem_singleton.1 mem
        exact root
      | some parent' =>
        rw [parent] at mem
        exact opened mem
    · cases mem

/-- Every resolution that is answered is that of some namespaces in order, or absent. -/
theorem exists_judge_of_answer {query : Query} {r : Resolution}
    (answered : h.answer kin query = .resolution r) :
    r = .absent ∨ ∃ name, ∃ scopes : List Scope,
      r = h.environment.judge name (scopes.flatMap (h.places name)) := by
  cases query with
  | constantAt name =>
    obtain rfl := Answer.resolution.inj answered
    refine .inr ⟨name.last, [.around name], ?_⟩
    rw [verdict_eq_judge, List.flatMap_singleton]
  | resolve name context =>
    obtain rfl := Answer.resolution.inj answered
    unfold resolution
    split
    · exact .inr ⟨name, _, decision_eq_judge name _⟩
    · exact .inl rfl
  | resolveChild qualifier name =>
    obtain rfl := Answer.resolution.inj answered
    unfold childResolution
    split
    · split
      · exact .inl rfl
      · exact .inr ⟨name, _, decision_eq_judge name _⟩
    · exact .inl rfl
  | _ => cases answered

theorem exists_tie_of_answer {query : Query} {conflict : Ambiguity}
    (answered : h.answer kin query = .resolution (.ambiguous conflict)) :
    ∃ tie, tie ∈ h.environment.ties := by
  rcases exists_judge_of_answer answered with absent | ⟨name, scopes, judged⟩
  · cases absent
  · obtain ⟨ns, mem, -, several⟩ := Environment.exists_candidates_of_judge judged.symm
    obtain ⟨scope, -, mem⟩ := List.mem_flatMap.1 mem
    obtain ⟨site, known, rfl⟩ := exists_site_of_mem_places mem
    exact ⟨(site, name), Environment.mem_ties_iff.2 ⟨known, several⟩⟩

/-- A bare name in the body of a class or module is first looked for in that class or module. -/
theorem exists_places_siteContext (kin : Kinship) (name : String) {site : Option QualifiedName}
    (known : site ∈ h.environment.sites) :
    ∃ after, (h.scopesFrom kin (siteContext site)).flatMap (h.places name) =
      siteSpace site :: after := by
  cases site with
  | none => exact ⟨_, rfl⟩
  | some module =>
    have itself := Environment.normalize?_of_contains (Environment.some_mem_sites.1 known)
    have first : h.places name (.inside module) = [module.toNamespace] := by
      simp [places, opened?, itself]
    obtain ⟨rest, order⟩ : ∃ rest,
        h.scopesFrom kin (siteContext (some module)) = .inside module :: rest := ⟨_, rfl⟩
    refine ⟨rest.flatMap (h.places name), ?_⟩
    rw [order, List.flatMap_cons, first]
    rfl

/-- A tie is met from its own place. -/
theorem resolution_siteContext {decls : List Declaration} {site : Option QualifiedName}
    (built : Environment.Built decls h.environment) (tied : (site, name) ∈ h.environment.ties) :
    h.resolution kin name (siteContext site) = .ambiguous (h.environment.tieAt site name) := by
  obtain ⟨known, several⟩ := Environment.mem_ties_iff.1 tied
  have said : (h.environment.table (siteSpace site)).lookup name =
      .ambiguous (h.environment.tieAt site name) :=
    Resolution.ofCandidates_eq_ambiguous_iff.2 ⟨rfl, several⟩
  obtain ⟨after, first⟩ := exists_places_siteContext kin name known
  rw [resolution_eq_judge built, first, ← List.nil_append (siteSpace site :: after),
    Environment.judge_eq_lookup (List.forall_mem_nil _) (by simp [said]), said]

end Hierarchy

namespace Environment

/-- The diagnostics about ties are one for each simple name with several candidates in the root or
in a class or module. Without any, no query of any run is answered with a tie. With one, its name
is answered with that tie in its own place, after whatever other queries, and the diagnostic lists
the candidates of the tie in order. -/
theorem tieReports_exact {decls : List Declaration} {env : Environment}
    (built : Built decls env) :
    (env.ties.Nodup ∧ env.tieReports = env.ties.map (fun tie => reportOf (env.tieAt tie.1 tie.2)) ∧
      ∀ site name, (site, name) ∈ env.ties ↔
        (∀ module, site = some module → (env.module? module).isSome) ∧
          2 ≤ ((env.table (siteSpace site)).candidates name).length) ∧
    (env.tieReports = [] → ∀ builtins queries query conflict,
      (query, .resolution (.ambiguous conflict)) ∉ Hierarchy.transcript ⟨env, builtins⟩ queries) ∧
    ∀ site name, (site, name) ∈ env.ties → ∀ builtins queries,
      ((Hierarchy.ask ⟨env, builtins⟩ (.resolve name (siteContext site))).run
          (Hierarchy.memoryAfter ⟨env, builtins⟩ queries)).1 =
        .resolution (.ambiguous (env.tieAt site name)) ∧
      (reportOf (env.tieAt site name)).related = (env.tieAt site name).candidates.map
        fun c => ⟨c.location?, s!"candidate: {c.signature}"⟩ := by
  refine ⟨⟨env.nodup_ties, env.tieReports_eq_map_ties, fun site name => ?_⟩, ?_, ?_⟩
  · rw [mem_ties_iff]
    cases site with
    | none => simp [sites]
    | some module => simp [some_mem_sites]
  · intro clean builtins queries query conflict asked
    obtain ⟨tie, mem⟩ :=
      Hierarchy.exists_tie_of_answer (Hierarchy.eq_answer_of_mem_transcript asked).symm
    rw [tieReports_eq_map_ties, List.map_eq_nil_iff] at clean
    exact List.not_mem_nil (clean ▸ mem)
  · intro site name tied builtins queries
    refine ⟨?_, rfl⟩
    have coherent := Hierarchy.coherent_memoryAfter ⟨env, builtins⟩ queries
    obtain ⟨coherent', -, right⟩ :=
      Hierarchy.settles_ask (.resolve name (siteContext site)) _ coherent
    rw [right _ coherent' (.refl _)]
    exact congrArg Answer.resolution (Hierarchy.resolution_siteContext built tied)

/-- The tie in a cycle is the only one. -/
theorem tieReports_exact_entangled :
    let b := Namespace.root.member "B"
    let x := b.toNamespace.member "X"
    let conflict : Ambiguity := ⟨"X", [⟨x, .singleton ⟨.root, "A"⟩, none⟩, ⟨x, .singleton b, none⟩]⟩
    entangled.ties = [(some b, "X")] ∧ entangled.tieReports = [reportOf conflict] ∧
      ((Hierarchy.ask ⟨entangled, .standard⟩ (.resolve "X" ⟨[b]⟩)).run
        (Hierarchy.memoryAfter ⟨entangled, .standard⟩ [.ancestors b])).1 =
          .resolution (.ambiguous conflict) := by
  intro b x conflict
  obtain ⟨⟨-, reports, -⟩, -, met⟩ := tieReports_exact built_entangled
  have ties : entangled.ties = [(some b, "X")] := by decide +kernel
  have tie : entangled.tieAt (some b) "X" = conflict := by decide +kernel
  refine ⟨ties, ?_, ?_⟩
  · rw [reports, ties, List.map_singleton, tie]
  · rw [← tie]
    exact (met (some b) "X" (ties ▸ List.mem_cons_self) .standard [.ancestors b]).1

end Environment

end NameResolution
