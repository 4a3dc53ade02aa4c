import NameResolution.Proofs.Lookup.Listing
import NameResolution.Proofs.Lookup.Order

/-!
# Names qualified by a class or module

What is reached through a class or module is decided by its ancestors and, for a class, by the
implicit ancestors behind them. The listing and the single lookup go through the same namespaces,
so they agree, and neither sees the root or an enclosing namespace.

## Main definitions

* `Hierarchy.memberModules` — the classes and modules that are gone through, in order.
* `Hierarchy.DeclaredAmong` — a constant is declared directly in one of some classes and modules.

## Main statements

* `Hierarchy.children_and_resolveChild_decided` — the listing and the single lookup in any run.
-/

namespace NameResolution

/-- The constants among which a resolution is made. -/
def Resolution.candidates : Resolution → List Constant
  | absent => []
  | found c => [c]
  | ambiguous conflict => conflict.candidates

theorem Resolution.candidates_ofCandidates (name : String) (candidates : List Constant) :
    (ofCandidates name candidates).candidates = candidates := by
  fun_cases ofCandidates name candidates <;> rfl

theorem Resolution.mem_candidates_of_first? {r : Resolution} {c : Constant}
    (first : r.first? = some c) : c ∈ r.candidates := by
  cases r with
  | absent => cases first
  | found d => exact List.mem_singleton.2 (Option.some.inj first).symm
  | ambiguous conflict => exact List.mem_of_mem_head? first

theorem Environment.Built.exists_space_of_mem_candidates {decls : List Declaration}
    {env : Environment} (built : Environment.Built decls env) {name : String}
    {spaces : List Namespace} {c : Constant} (mem : c ∈ (env.judge name spaces).candidates) :
    ∃ ns ∈ spaces, c.name = ns.member name := by
  have present : env.judge name spaces ≠ .absent := by
    intro absent
    rw [absent] at mem
    cases mem
  obtain ⟨ns, among, same⟩ := Environment.exists_lookup_eq_judge present
  rw [← same, ConstantTable.lookup, Resolution.candidates_ofCandidates] at mem
  exact ⟨ns, among, built.name_of_mem_candidates mem⟩

namespace Hierarchy

variable {h : Hierarchy} {kin : Kinship} {qualifier target : QualifiedName}
  {line : List QualifiedName}

/-- The classes and modules that are gone through for a name qualified by `target`, whose ancestors
are `line`. -/
def memberModules (h : Hierarchy) (target : QualifiedName) (line : List QualifiedName) :
    List QualifiedName :=
  if (h.environment.module? target).any (·.isClass) then
    appendMissing line h.builtins.implicitAncestors
  else line

/-- The constant is declared directly in what one of the names stands for. -/
def DeclaredAmong (h : Hierarchy) (modules : List QualifiedName) (c : Constant) : Prop :=
  ∃ module ∈ modules, h.opened? module = some c.name.container

theorem chainFrom?_eq_some (leads : h.environment.normalize? qualifier = some target)
    (ancestors : kin qualifier = some line) :
    h.chainFrom? kin qualifier = some (h.memberModules target line) := by
  simp [chainFrom?, memberModules, leads, ancestors]

theorem declaredAmong_of_mem_candidates {decls : List Declaration}
    (built : Environment.Built decls h.environment) {name : String} {modules : List QualifiedName}
    {c : Constant}
    (mem : c ∈ (h.environment.judge name (modules.filterMap h.opened?)).candidates) :
    h.DeclaredAmong modules c := by
  obtain ⟨ns, among, named⟩ := built.exists_space_of_mem_candidates mem
  obtain ⟨module, mem, opened⟩ := List.mem_filterMap.1 among
  exact ⟨module, mem, by rw [opened, named, Namespace.member]⟩

theorem declaredAmong_of_find?_panorama {decls : List Declaration}
    (built : Environment.Built decls h.environment) {modules : List QualifiedName} {key : String}
    {c : Constant} (listed : (h.panorama (modules.map .inside)).find? key = some c) :
    h.DeclaredAmong modules c := by
  rw [find?_panorama, decision_eq_judge, flatMap_places_inside] at listed
  exact declaredAmong_of_mem_candidates built (Resolution.mem_candidates_of_first? listed)

/-- In any run of queries that asks for the listing of a class or module and for one name in it, in
whatever order, both are empty when the qualifier stands for nothing. Otherwise both are decided by
the first of its ancestors, followed for a class by the implicit ancestors that are missing there,
that declares the name, and show nothing that is not declared directly in one of those. -/
theorem children_and_resolveChild_decided {decls : List Declaration} {env : Environment}
    (built : Environment.Built decls env) (builtins : Builtins) (queries : List Query)
    (qualifier : QualifiedName) (name : String) (line : List QualifiedName)
    {listed resolved : Answer}
    (asked_listing : (.children qualifier, listed) ∈ transcript ⟨env, builtins⟩ queries)
    (asked_name : (.resolveChild qualifier name, resolved) ∈ transcript ⟨env, builtins⟩ queries)
    (asked_line : ∀ target, env.normalize? qualifier = some target →
      (.ancestors target, .ancestors (some line)) ∈ transcript ⟨env, builtins⟩ queries) :
    ∃ listing? r, listed = .listing listing? ∧ resolved = .resolution r ∧
      (listing? = none ↔ env.normalize? qualifier = none) ∧
      (env.normalize? qualifier = none → r = .absent) ∧
      ∀ target, env.normalize? qualifier = some target →
        ∃ listing, listing? = some listing ∧ listing.Shows name r ∧
          DecidedBy decls
            ((memberModules ⟨env, builtins⟩ target line).filterMap (opened? ⟨env, builtins⟩))
            name r ∧
          (∀ c ∈ r.candidates,
            DeclaredAmong ⟨env, builtins⟩ (memberModules ⟨env, builtins⟩ target line) c) ∧
          ∀ key c, listing.find? key = some c →
            DeclaredAmong ⟨env, builtins⟩ (memberModules ⟨env, builtins⟩ target line) c := by
  obtain rfl := eq_answer_of_mem_transcript asked_listing
  obtain rfl := eq_answer_of_mem_transcript asked_name
  refine ⟨_, _, rfl, rfl, ?_⟩
  cases leads : env.normalize? qualifier with
  | none =>
    have nowhere : chainFrom? ⟨env, builtins⟩
        ((memoryAfter ⟨env, builtins⟩ queries).kin ⟨env, builtins⟩) qualifier = none := by
      simp [chainFrom?, leads]
    simp [childResolution, nowhere]
  | some target =>
    have ancestors : (memoryAfter ⟨env, builtins⟩ queries).kin ⟨env, builtins⟩ qualifier =
        some line := by
      rw [← Memory.kin_of_leads leads]
      exact kin_of_mem_transcript (asked_line target leads)
    have chain := chainFrom?_eq_some (h := ⟨env, builtins⟩) leads ancestors
    rw [childResolution_eq_judge built name chain, flatMap_places_inside, chain]
    refine ⟨by simp, by simp, fun target' same => ?_⟩
    obtain rfl := Option.some.inj same
    refine ⟨_, rfl, ?_, built.decidedBy_judge name _, ?_, ?_⟩
    · simpa [flatMap_places_inside] using panorama_shows_judge ⟨env, builtins⟩ name
        ((memberModules ⟨env, builtins⟩ target line).map .inside)
    · exact fun c mem => declaredAmong_of_mem_candidates built mem
    · exact fun key c listed => declaredAmong_of_find?_panorama built listed

/-- A tie that is reached through a cycle, and asked for before the listing. -/
theorem children_and_resolveChild_decided_entangled :
    let a := Namespace.root.member "A"
    let b := Namespace.root.member "B"
    let x := b.toNamespace.member "X"
    let tie := .ambiguous ⟨"X", [⟨x, .singleton a, none⟩, ⟨x, .singleton b, none⟩]⟩
    ∃ listing : Listing,
      transcript ⟨.entangled, .standard⟩ [.resolveChild a "X", .children a, .ancestors a] =
        [(.resolveChild a "X", .resolution tie), (.children a, .listing (some listing)),
          (.ancestors a, .ancestors (some [a, b]))] ∧
      listing.Shows "X" tie ∧ SettledBy Environment.entangledDecls b.toNamespace "X" tie := by
  intro a b x tie
  have run : transcript ⟨.entangled, .standard⟩ [.resolveChild a "X", .children a, .ancestors a] =
      [(.resolveChild a "X", .resolution tie),
        (.children a, .listing (some ⟨[("X", ⟨x, .singleton a, none⟩)], by decide⟩)),
        (.ancestors a, .ancestors (some [a, b]))] := by
    decide +kernel
  have itself : Environment.entangled.normalize? a = some a := by decide +kernel
  obtain ⟨listing?, r, listed, resolved, -, -, decided⟩ := children_and_resolveChild_decided
    Environment.built_entangled .standard _ a "X" [a, b]
    (by rw [run]; exact .tail _ (.head _)) (by rw [run]; exact .head _) fun target leads => by
      obtain rfl := Option.some.inj (itself.symm.trans leads)
      rw [run]
      exact .tail _ (.tail _ (.head _))
  cases listed
  cases resolved
  obtain ⟨listing, same, shows, by_first, -⟩ := decided a itself
  cases same
  have spaces : (memberModules ⟨.entangled, .standard⟩ a [a, b]).filterMap
      (opened? ⟨.entangled, .standard⟩) = [a.toNamespace] ++ b.toNamespace :: [] := by
    decide +kernel
  refine ⟨_, run, shows, by_first.settled _ _ _ spaces ?_ ?_⟩
  · have undeclared : ∀ decl ∈ Environment.entangledDecls,
        decl.name ≠ a.toNamespace.member "X" := by
      decide
    rintro earlier mem type ⟨decl, declared, named, -⟩
    exact undeclared decl declared (List.mem_singleton.1 mem ▸ named)
  · exact ⟨.singleton a, .ofConstant ⟨x, .singleton a, none⟩, by decide, rfl, rfl⟩

end Hierarchy

end NameResolution
