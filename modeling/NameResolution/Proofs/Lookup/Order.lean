import Mathlib.Data.List.Basic
import NameResolution.Proofs.Lookup.Places
import NameResolution.Proofs.Lookup.Transcript

/-!
# The order of lookup

The meaning of a bare name, told from the declarations: the namespaces are gone through in one
fixed order, and the first one that declares the name decides.

## Main definitions

* `Hierarchy.searchOrder` — the namespaces, in order.
* `Hierarchy.ownAncestors`, `Hierarchy.objectModules` — the ancestors before and behind the root.
* `OneType` — all declarations of a name give it the same type.
* `DecidedBy` — the first namespace of a list that declares a name settles it.

## Main statements

* `Environment.Built.decidedBy_judge` — what namespaces in order say of a name.
* `Hierarchy.eq_judge_searchOrder` — a run answers what the search order says.
* `Hierarchy.resolve_decided_by_first_declaring` — the meaning of a bare name.
-/

namespace NameResolution

/-- All declarations of the name give it the same type. -/
def OneType (decls : List Declaration) (name : QualifiedName) : Prop :=
  ∀ type type', Declares decls name type → Declares decls name type' → type = type'

/-- The namespace settles the name as the resolution says: with the one type that is declared for
it, or with a tie between one candidate for each of several types. -/
structure SettledBy (decls : List Declaration) (ns : Namespace) (name : String) (r : Resolution) :
    Prop where
  one : OneType decls (ns.member name) →
    ∃ c, r = .found c ∧ c.name = ns.member name ∧ Declares decls c.name c.type
  several : ¬OneType decls (ns.member name) →
    ∃ candidates, r = .ambiguous ⟨name, candidates⟩ ∧ (∀ c ∈ candidates, c.name = ns.member name) ∧
      (candidates.map Constant.type).Nodup ∧
      ∀ type, type ∈ candidates.map Constant.type ↔ Declares decls (ns.member name) type

theorem Environment.Built.settledBy_lookup {decls : List Declaration} {env : Environment}
    (built : Built decls env) {ns : Namespace} {name : String} {type : TypeExpr}
    (declared : Declares decls (ns.member name) type) :
    SettledBy decls ns name ((env.table ns).lookup name) := by
  rcases built.lookup_of_declares declared with
    ⟨c, found, named, only⟩ | ⟨candidates, tied, two, named, nodup, all⟩
  · have one_type : OneType decls (ns.member name) :=
      fun _ _ first second => ((only _).1 first).trans ((only _).1 second).symm
    refine ⟨fun _ => ⟨c, found, named, ?_⟩, fun several => absurd one_type several⟩
    rw [named]
    exact (only c.type).2 rfl
  · have several : ¬OneType decls (ns.member name) := by
      intro one_type
      match candidates, two with
      | c :: d :: rest, _ =>
        have same := one_type c.type d.type ((all _).2 (by simp)) ((all _).2 (by simp))
        simp [same] at nodup
    exact ⟨fun one => absurd one several, fun _ => ⟨candidates, tied, named, nodup,
      fun type' => (all type').symm⟩⟩

/-- The first of some namespaces that declares the name settles it, and without one it means
nothing. -/
structure DecidedBy (decls : List Declaration) (spaces : List Namespace) (name : String)
    (r : Resolution) : Prop where
  absent : r = .absent ↔ ∀ ns ∈ spaces, ∀ type, ¬Declares decls (ns.member name) type
  settled : ∀ before ns after, spaces = before ++ ns :: after →
    (∀ earlier ∈ before, ∀ type, ¬Declares decls (earlier.member name) type) →
    (∃ type, Declares decls (ns.member name) type) → SettledBy decls ns name r

theorem Environment.Built.decidedBy_judge {decls : List Declaration} {env : Environment}
    (built : Built decls env) (name : String) (spaces : List Namespace) :
    DecidedBy decls spaces name (env.judge name spaces) := by
  refine ⟨?_, fun before ns after split earlier declares => ?_⟩
  · simp only [Environment.judge_eq_absent_iff, built.lookup_eq_absent_iff]
  · obtain ⟨type, declared⟩ := declares
    have missing : ∀ space ∈ before, (env.table space).lookup name = .absent :=
      fun space mem => built.lookup_eq_absent_iff.2 (earlier space mem)
    have present : (env.table ns).lookup name ≠ .absent :=
      fun absent => built.lookup_eq_absent_iff.1 absent type declared
    rw [split, Environment.judge_eq_lookup missing present]
    exact built.settledBy_lookup declared

namespace Hierarchy

variable {h : Hierarchy} {kin : Kinship}

/-- The namespaces in which a bare name is looked for, in order: those of the frames, behind the
innermost one the namespace around it when the name is its own, those of its ancestors less the
implicit ones, the root, the object class, its other ancestors, and the kernel and the basic object
class where those lack them. Names that stand for no class or module are left out. -/
def searchOrder (h : Hierarchy) (kin : Kinship) (name : String) (context : Context) :
    List Namespace :=
  let inside (names : List QualifiedName) := names.filterMap h.opened?
  (match context.frames with
    | [] => []
    | frame :: outer =>
      inside [frame] ++ (if frame.last = name then (h.enclosing? frame).toList else []) ++
        inside outer ++
        inside (((kin frame).getD []).filter fun n => n ∉ h.builtins.implicitAncestors)) ++
    .root :: inside [h.builtins.object] ++
    inside (appendMissing (((kin h.builtins.object).getD []).filter (· ≠ h.builtins.object))
      [h.builtins.kernel, h.builtins.basicObject])

/-- The ancestors of the innermost frame, less the implicit ones. -/
def ownAncestors (h : Hierarchy) (kin : Kinship) (context : Context) : List QualifiedName :=
  match context.innermost? with
  | none => []
  | some frame => ((kin frame).getD []).filter (· ∉ h.builtins.implicitAncestors)

/-- The object class, its other ancestors and the implicit ones. -/
def objectModules (h : Hierarchy) (kin : Kinship) : List QualifiedName :=
  h.builtins.object :: appendMissing (((kin h.builtins.object).getD []).filter
    (· ≠ h.builtins.object)) [h.builtins.kernel, h.builtins.basicObject]

/-- A name that is not the innermost frame's own is looked for in the frames, in the ancestors of
the innermost one, at the root and from the object class upwards. -/
theorem searchOrder_of_foreign {name : String} {context : Context}
    (foreign : ∀ frame ∈ context.innermost?, frame.last ≠ name) :
    h.searchOrder kin name context = context.frames.filterMap h.opened? ++
      ((h.ownAncestors kin context).filterMap h.opened? ++
        .root :: (h.objectModules kin).filterMap h.opened?) := by
  have above : (h.objectModules kin).filterMap h.opened? =
      [h.builtins.object].filterMap h.opened? ++ (appendMissing
        (((kin h.builtins.object).getD []).filter (· ≠ h.builtins.object))
          [h.builtins.kernel, h.builtins.basicObject]).filterMap h.opened? := by
    rw [← List.filterMap_append, List.singleton_append, objectModules]
  rw [above]
  obtain ⟨_ | ⟨frame, outer⟩⟩ := context
  · rfl
  · have own : frame.last ≠ name := foreign frame rfl
    have head : (frame :: outer).filterMap h.opened? =
        [frame].filterMap h.opened? ++ outer.filterMap h.opened? := by
      rw [← List.filterMap_append, List.singleton_append]
    simp only [searchOrder, if_neg own, head, List.append_nil, List.append_assoc]
    rfl

theorem flatMap_places_inside (name : String) (names : List QualifiedName) :
    (names.map Scope.inside).flatMap (h.places name) = names.filterMap h.opened? := by
  rw [List.flatMap_map, List.filterMap_eq_flatMap_toList]
  rfl

theorem flatMap_places_lexicalScopes (name : String) (frame : QualifiedName)
    (outer : List QualifiedName) :
    (Context.lexicalScopes ⟨frame :: outer⟩).flatMap (h.places name) =
      [frame].filterMap h.opened? ++
        (if frame.last = name then (h.enclosing? frame).toList else []) ++
        outer.filterMap h.opened? := by
  rw [Context.lexicalScopes, List.flatMap_cons, List.flatMap_cons, flatMap_places_inside,
    List.append_assoc, ← flatMap_places_inside name [frame]]
  simp [places]

theorem flatMap_places_inheritedFrom (name : String) (frame : QualifiedName)
    (outer : List QualifiedName) :
    (h.inheritedFrom kin ⟨frame :: outer⟩).flatMap (h.places name) =
      (((kin frame).getD []).filter fun n => n ∉ h.builtins.implicitAncestors).filterMap
        h.opened? := by
  rw [inheritedFrom, Context.innermost?, List.head?_cons]
  simp only [flatMap_places_inside, Builtins.isBuiltin, List.contains_eq_mem, decide_not]

/-- The scopes of a bare name open the namespaces of the search order. -/
theorem flatMap_places_scopesFrom (name : String) (context : Context) :
    (h.scopesFrom kin context).flatMap (h.places name) = h.searchOrder kin name context := by
  have outermost : h.outermostScopes.flatMap (h.places name) =
      .root :: [h.builtins.object].filterMap h.opened? := by
    rw [← flatMap_places_inside name]
    simp [outermostScopes, places]
  have object : (h.objectFrom kin).flatMap (h.places name) = (appendMissing
      (((kin h.builtins.object).getD []).filter (· ≠ h.builtins.object))
        [h.builtins.kernel, h.builtins.basicObject]).filterMap h.opened? := by
    rw [objectFrom, flatMap_places_inside]
    simp [bne, beq_eq_decide]
  obtain ⟨frames⟩ := context
  rw [scopesFrom, List.flatMap_append, List.flatMap_append, List.flatMap_append, outermost, object]
  cases frames with
  | nil => rfl
  | cons frame outer =>
    rw [flatMap_places_lexicalScopes, flatMap_places_inheritedFrom]
    simp [searchOrder]

/-- A bare name means what the search order says, whatever else was asked before. -/
theorem eq_judge_searchOrder {decls : List Declaration} {name : String}
    (built : Environment.Built decls h.environment) {queries : List Query} {context : Context}
    {resolved : Answer}
    (asked : (.resolve name context, resolved) ∈ h.transcript queries)
    (asked_kin : ∀ n ∈ context.innermost?.toList ++ [h.builtins.object],
      (.ancestors n, .ancestors (kin n)) ∈ h.transcript queries) :
    resolved = .resolution (h.environment.judge name (h.searchOrder kin name context)) := by
  have same : ∀ n ∈ context.innermost?.toList ++ [h.builtins.object],
      (h.memoryAfter queries).kin h n = kin n :=
    fun n mem => kin_of_mem_transcript (asked_kin n mem)
  rw [eq_answer_of_mem_transcript asked, answer, resolution_eq_judge built, scopesFrom_congr same,
    flatMap_places_scopesFrom]

/-- A bare name means nothing exactly when no namespace of the search order declares it, and else
the first one that does settles it. The ancestors are those that the same run of queries answers
for the innermost frame and for the object class. -/
theorem resolve_decided_by_first_declaring {decls : List Declaration} {env : Environment}
    (built : Environment.Built decls env) (builtins : Builtins) (queries : List Query)
    (context : Context) (name : String) (kin : Kinship) {resolved : Answer}
    (asked : (.resolve name context, resolved) ∈ transcript ⟨env, builtins⟩ queries)
    (asked_kin : ∀ n ∈ context.innermost?.toList ++ [builtins.object],
      (.ancestors n, .ancestors (kin n)) ∈ transcript ⟨env, builtins⟩ queries) :
    ∃ r, resolved = .resolution r ∧
      (r = .absent ↔ ∀ ns ∈ searchOrder ⟨env, builtins⟩ kin name context,
        ∀ type, ¬Declares decls (ns.member name) type) ∧
      ∀ before ns after, searchOrder ⟨env, builtins⟩ kin name context = before ++ ns :: after →
        (∀ earlier ∈ before, ∀ type, ¬Declares decls (earlier.member name) type) →
        (∃ type, Declares decls (ns.member name) type) → SettledBy decls ns name r := by
  have decided := built.decidedBy_judge name (searchOrder ⟨env, builtins⟩ kin name context)
  exact ⟨_, eq_judge_searchOrder built asked asked_kin, decided.absent, decided.settled⟩

/-- A name that only an ancestor within a cycle declares, with two types. -/
theorem resolve_decided_by_first_declaring_entangled :
    let a := Namespace.root.member "A"
    let b := Namespace.root.member "B"
    let tie := .ambiguous ⟨"X", [⟨b.toNamespace.member "X", .singleton a, none⟩,
      ⟨b.toNamespace.member "X", .singleton b, none⟩]⟩
    let kin : Kinship := fun n => if n = a then some [a, b] else none
    transcript ⟨.entangled, .standard⟩
        [.resolve "X" ⟨[a]⟩, .ancestors a, .ancestors Builtins.standard.object] =
      [(.resolve "X" ⟨[a]⟩, .resolution tie), (.ancestors a, .ancestors (kin a)),
        (.ancestors Builtins.standard.object, .ancestors (kin Builtins.standard.object))] ∧
      searchOrder ⟨.entangled, .standard⟩ kin "X" ⟨[a]⟩ =
        [a.toNamespace, a.toNamespace] ++ b.toNamespace :: [.root] ∧
      SettledBy Environment.entangledDecls b.toNamespace "X" tie := by
  intro a b tie kin
  have run : transcript ⟨.entangled, .standard⟩
      [.resolve "X" ⟨[a]⟩, .ancestors a, .ancestors Builtins.standard.object] =
      [(.resolve "X" ⟨[a]⟩, .resolution tie), (.ancestors a, .ancestors (kin a)),
        (.ancestors Builtins.standard.object, .ancestors (kin Builtins.standard.object))] := by
    decide +kernel
  have order : searchOrder ⟨.entangled, .standard⟩ kin "X" ⟨[a]⟩ =
      [a.toNamespace, a.toNamespace] ++ b.toNamespace :: [.root] := by
    decide +kernel
  refine ⟨run, order, ?_⟩
  obtain ⟨r, resolved, -, settles⟩ := resolve_decided_by_first_declaring
    Environment.built_entangled .standard _ ⟨[a]⟩ "X" kin
    (by rw [run]; exact .head _)
    (by rw [run]; simp [Context.innermost?])
  cases resolved
  refine settles _ _ _ order ?_ ?_
  · have undeclared : ∀ earlier ∈ [a.toNamespace, a.toNamespace],
        ∀ decl ∈ Environment.entangledDecls, decl.name ≠ earlier.member "X" := by
      decide
    rintro earlier mem type ⟨decl, declared, named, -⟩
    exact undeclared earlier mem decl declared named
  · exact ⟨.singleton a, .ofConstant ⟨b.toNamespace.member "X", .singleton a, none⟩,
      by decide, rfl, rfl⟩

end Hierarchy

end NameResolution
