import Mathlib.Logic.Relation
import NameResolution.Proofs.Lookup.Transcript

/-!
# How a memory changes

Whatever is asked, a memory changes in five ways only: a table is built for a namespace that
declarations can stand in, the ancestors of some name are worked out, and a listing or the meaning
of a type name is stored. What these steps keep is kept by every computation over the memory, from
the tables up to a run of queries.

## Main definitions

* `Environment.HasTable` — the namespaces that declarations can stand in.
* `Memory.Change` — one step.
* `Hierarchy.Remembers` — a computation changes its memory by such steps.

## Main statements

* `Hierarchy.remembers_ask` — a query changes the memory by such steps.
* `Hierarchy.reachable_memoryAfter` — what is remembered after a run was reached by such steps.
-/

namespace NameResolution

/-- The namespace is the root or that of a declared class or module. -/
def Environment.HasTable (env : Environment) (ns : Namespace) : Prop :=
  ns = .root ∨ ∃ name, (env.module? name).isSome ∧ ns = name.toNamespace

/-- One step in which a memory changes. -/
inductive Memory.Change (h : Hierarchy) (m : Memory) : Memory → Prop
  /-- The table of a namespace is built, unless it is remembered. -/
  | openTable {ns : Namespace} (site : h.environment.HasTable ns) :
      Change h m { m with tables := m.tables.insertIfNew ns (h.environment.table ns) }
  /-- The ancestors of a name are asked for. -/
  | askAncestors (name : QualifiedName) :
      Change h m { m with lineages := ((h.ancestors? name).run m.lineages).2 }
  /-- What is visible in a context is stored. -/
  | keepContext (context : Context) (listing : Listing) :
      Change h m { m with contexts := m.contexts.insertIfNew context listing }
  /-- What is reached through a class or module is stored under its own name. -/
  | keepChildren {target : QualifiedName} (declared : (h.environment.module? target).isSome)
      (listing : Listing) :
      Change h m { m with children := m.children.insertIfNew target listing }
  /-- The meaning of a type name is stored. -/
  | keepTypeName (name : QualifiedName) (context : Context) (meaning : Option QualifiedName) :
      Change h m { m with typeNames := m.typeNames.insertIfNew (name, context) meaning }

namespace Hierarchy

open Relation (ReflTransGen)

variable {h : Hierarchy} {α β : Type}

/-- The computation changes the memory by such steps, one after the other. -/
def Remembers (h : Hierarchy) (op : StateM Memory α) : Prop :=
  ∀ m, ReflTransGen (Memory.Change h) m (op.run m).2

namespace Remembers

variable {op : StateM Memory α}

protected theorem pure (a : α) : h.Remembers (pure a) := fun _ => .refl

protected theorem bind {next : α → StateM Memory β} (first : h.Remembers op)
    (second : ∀ a, h.Remembers (next a)) : h.Remembers (op >>= next) :=
  fun m => (first m).trans (second (op.run m).1 (op.run m).2)

protected theorem map (f : α → β) (remembers : h.Remembers op) :
    h.Remembers (do return f (← op)) :=
  remembers.bind fun a => .pure (f a)

/-- A result may be stored where storing it is such a step. -/
protected theorem store (remembers : h.Remembers op) {keep : α → Memory → Memory}
    (keeps : ∀ a m, ReflTransGen (Memory.Change h) m (keep a m)) :
    h.Remembers (do let a ← op; modify (keep a); return a) :=
  fun m => (remembers m).trans (keeps _ _)

end Remembers

/-! ## Tables -/

theorem remembers_openTable {ns : Namespace} (site : h.environment.HasTable ns) :
    h.Remembers (h.openTable ns) := by
  intro m
  cases known : m.tables.find? ns with
  | some table => rw [run_openTable_of_known known]
  | none =>
    rw [run_openTable_of_new known]
    exact .single (.openTable site)

theorem remembers_openRoot : h.Remembers h.openRoot := remembers_openTable (.inl rfl)

/-- A name leads to the table of a declared class or module, or to none. -/
theorem remembers_openChildren? (name : QualifiedName) : h.Remembers (h.openChildren? name) := by
  unfold openChildren?
  cases leads : h.environment.normalize? name with
  | none => exact .pure none
  | some target =>
    have declared := Environment.contains_of_normalize? leads
    exact (remembers_openTable (.inr ⟨target, declared, rfl⟩)).map some

theorem remembers_openEnclosing? (name : QualifiedName) :
    h.Remembers (h.openEnclosing? name) := by
  unfold openEnclosing?
  cases name.parent? with
  | none => exact remembers_openRoot.map some
  | some parent => exact remembers_openChildren? parent

theorem remembers_openScope? (scope : Scope) : h.Remembers (h.openScope? scope) := by
  cases scope with
  | root => exact remembers_openRoot.map some
  | inside name => exact remembers_openChildren? name
  | around frame => exact remembers_openEnclosing? frame

theorem remembers_lookupIn (name : String) (scope : Scope) :
    h.Remembers (h.lookupIn name scope) := by
  unfold lookupIn
  cases scope.shows name with
  | false => exact .pure _
  | true => exact (remembers_openScope? scope).bind fun table? => by cases table? <;> exact .pure _

theorem remembers_constantAt (name : QualifiedName) : h.Remembers (h.constantAt name) :=
  (remembers_openEnclosing? name).bind fun table? => by cases table? <;> exact .pure _

/-! ## Searching and gathering -/

theorem remembers_search (name : String) (scopes : List Scope) :
    h.Remembers (h.search name scopes) := by
  induction scopes with
  | nil => exact .pure _
  | cons scope outer ih =>
    refine (remembers_lookupIn name scope).bind fun here => ?_
    cases here with
    | absent => exact ih
    | found c => exact .pure _
    | ambiguous conflict => exact .pure _

theorem remembers_searchStages (name : String) {stages : List (StateM Memory (List Scope))}
    (remembers : ∀ stage ∈ stages, h.Remembers stage) :
    h.Remembers (h.searchStages name stages) := by
  induction stages with
  | nil => exact .pure _
  | cons stage later ih =>
    obtain ⟨now, rest⟩ := List.forall_mem_cons.1 remembers
    refine now.bind fun scopes => (remembers_search name scopes).bind fun first => ?_
    cases first with
    | absent => exact ih rest
    | found c => exact .pure _
    | ambiguous conflict => exact .pure _

theorem remembers_gather (scopes : List Scope) : h.Remembers (h.gather scopes) := by
  induction scopes with
  | nil => exact .pure _
  | cons scope outer ih =>
    refine ih.bind fun listing => (remembers_openScope? scope).bind fun table? => ?_
    cases table? <;> exact .pure _

/-! ## Ancestors -/

theorem remembers_recallAncestors? (name : QualifiedName) :
    h.Remembers (h.recallAncestors? name) := by
  intro m
  rw [run_recallAncestors?]
  exact .single (.askAncestors name)

theorem remembers_inheritedScopes (context : Context) :
    h.Remembers (h.inheritedScopes context) := by
  unfold inheritedScopes
  cases context.innermost? with
  | none => exact .pure _
  | some frame => exact (remembers_recallAncestors? frame).map _

theorem remembers_objectScopes : h.Remembers h.objectScopes :=
  (remembers_recallAncestors? _).map _

theorem remembers_memberChain? (name : QualifiedName) : h.Remembers (h.memberChain? name) := by
  unfold memberChain?
  cases h.environment.normalize? name with
  | none => exact .pure _
  | some target => exact (remembers_recallAncestors? target).map _

theorem remembers_allScopes (context : Context) : h.Remembers (h.allScopes context) :=
  remembers_objectScopes.bind fun _ => (remembers_inheritedScopes context).map _

/-! ## Queries -/

theorem remembers_resolve (name : String) (context : Context) :
    h.Remembers (h.resolve name context) := by
  unfold resolve
  cases h.isDeclaredSomewhere name with
  | false => exact .pure _
  | true =>
    refine remembers_searchStages name fun stage mem => ?_
    simp only [List.mem_cons, List.not_mem_nil, or_false] at mem
    obtain rfl | rfl | rfl | rfl := mem
    · exact .pure _
    · exact remembers_inheritedScopes context
    · exact .pure _
    · exact remembers_objectScopes

theorem remembers_resolveChild (qualifier : QualifiedName) (name : String) :
    h.Remembers (h.resolveChild qualifier name) := by
  unfold resolveChild
  cases h.isDeclaredSomewhere name with
  | false => exact .pure _
  | true =>
    refine (remembers_memberChain? qualifier).bind fun chain? => ?_
    cases chain? with
    | none => exact .pure _
    | some chain => exact remembers_search name _

theorem remembers_constants (context : Context) : h.Remembers (h.constants context) := by
  intro m
  cases known : m.contexts.find? context with
  | some listing => rw [run_constants_of_known known]
  | none =>
    rw [run_constants_of_new known]
    exact ((remembers_allScopes context).bind remembers_gather).store
      (fun listing _ => .single (.keepContext context listing)) m

theorem remembers_gatherChildren? (target : QualifiedName) :
    h.Remembers (h.gatherChildren? target) := by
  refine (remembers_memberChain? target).bind fun chain? => ?_
  cases chain? with
  | none => exact .pure _
  | some chain => exact (remembers_gather _).map some

theorem remembers_children (qualifier : QualifiedName) : h.Remembers (h.children qualifier) := by
  cases leads : h.environment.normalize? qualifier with
  | none =>
    unfold children
    rw [leads]
    exact .pure none
  | some target =>
    intro m
    cases known : m.children.find? target with
    | some listing => rw [run_children_of_known leads known]
    | none =>
      rw [run_children_of_new leads known]
      refine (remembers_gatherChildren? target).store (fun listing? m => ?_) m
      cases listing? with
      | none => exact .refl
      | some listing =>
        exact .single (.keepChildren (Environment.contains_of_normalize? leads) listing)

theorem remembers_resolveTypeName (name : QualifiedName) (context : Context) :
    h.Remembers (h.resolveTypeName name context) := by
  intro m
  by_cases absolute : name.isAbsolute
  · rw [run_resolveTypeName_of_absolute absolute]
  cases known : m.typeNames.find? (name, context) with
  | some meaning => rw [run_resolveTypeName_of_known absolute known]
  | none =>
    rw [run_resolveTypeName_of_new absolute known]
    exact .single (.keepTypeName name context _)

theorem remembers_ask (query : Query) : h.Remembers (h.ask query) := by
  cases query with
  | rootTable => exact remembers_openRoot.map _
  | childTable name => exact (remembers_openChildren? name).map _
  | enclosingTable name => exact (remembers_openEnclosing? name).map _
  | constantAt name => exact (remembers_constantAt name).map _
  | ancestors name => exact (remembers_recallAncestors? name).map _
  | resolve name context => exact (remembers_resolve name context).map _
  | resolveChild qualifier name => exact (remembers_resolveChild qualifier name).map _
  | constants context => exact (remembers_constants context).map _
  | children qualifier => exact (remembers_children qualifier).map _
  | typeName name context => exact (remembers_resolveTypeName name context).map _

theorem remembers_askAll (queries : List Query) : h.Remembers (h.askAll queries) := by
  unfold askAll
  induction queries with
  | nil => exact .pure []
  | cons query queries ih =>
    rw [List.mapM_cons]
    exact (remembers_ask query).bind fun answer => ih.map (answer :: ·)

/-- Whatever is remembered after a run of queries was reached from nothing by such steps. -/
theorem reachable_memoryAfter (h : Hierarchy) (queries : List Query) :
    ReflTransGen (Memory.Change h) ∅ (h.memoryAfter queries) :=
  remembers_askAll queries ∅

end Hierarchy

end NameResolution
