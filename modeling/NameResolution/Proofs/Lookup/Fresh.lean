import NameResolution.Proofs.Ancestry.Remembered
import NameResolution.Proofs.Lookup.Recall

/-!
# Answers with nothing remembered

A query asks for the ancestors of a few names, in an order that depends on the query alone, and a
search that finds its name early leaves out the last of them. With nothing remembered before, what
it is answered is therefore told from the lineages that these requests lead to.

## Main definitions

* `Query.requests` — the names whose ancestors a query asks for, in order.
* `Hierarchy.kinAfter` — the lists of ancestors known after some requests.
* `Hierarchy.Asks`, `Hierarchy.AsksWithin` — a computation makes some requests, or the first of
  them.

## Main statements

* `Hierarchy.asksWithin_searchStages` — a search by stages makes the requests of its first stages.
* `Hierarchy.ask_empty_eq_answer` — the answer to a query with nothing remembered.
-/

namespace NameResolution

/-- The names whose ancestors a query asks for, in order. -/
def Query.requests (builtins : Builtins) : Query → List QualifiedName
  | .resolve _ context => context.innermost?.toList ++ [builtins.object]
  | .constants context => builtins.object :: context.innermost?.toList
  | .ancestors name | .resolveChild name _ | .children name => [name]
  | .rootTable | .childTable _ | .enclosingTable _ | .constantAt _ | .typeName .. => []

namespace Hierarchy

variable {h : Hierarchy} {α β : Type} {names names' : List QualifiedName}

/-! ## Requests -/

/-- The lineages after some more requests. -/
def request (h : Hierarchy) (names : List QualifiedName) (known : Lineages) : Lineages :=
  ((names.mapM h.ancestors?).run known).2

/-- The lists of ancestors known after some requests. -/
def kinAfter (h : Hierarchy) (names : List QualifiedName) : Kinship :=
  fun name => (h.environment.normalize? name).bind (h.lineagesAfter names).find?

@[simp] theorem request_nil (known : Lineages) : h.request [] known = known := rfl

theorem request_cons (name : QualifiedName) (names : List QualifiedName) (known : Lineages) :
    h.request (name :: names) known = h.request names ((h.ancestors? name).run known).2 :=
  run_requests_cons name names known

theorem request_append (names names' : List QualifiedName) (known : Lineages) :
    h.request (names ++ names') known = h.request names' (h.request names known) := by
  induction names generalizing known with
  | nil => rfl
  | cons name names ih => rw [List.cons_append, request_cons, request_cons, ih]

theorem growsTo_request (h : Hierarchy) (names : List QualifiedName) (known : Lineages) :
    known.GrowsTo (h.request names known) := by
  induction names generalizing known with
  | nil => exact .refl known
  | cons name names ih =>
    rw [request_cons]
    exact (h.growsTo_ancestors? name known).trans (ih _)

/-- The computation makes the requests, and no others. -/
def Asks (h : Hierarchy) (op : StateM Memory α) (names : List QualifiedName) : Prop :=
  ∀ m, (op.run m).2.lineages = h.request names m.lineages

/-- The computation makes no requests beyond these. -/
def AsksWithin (h : Hierarchy) (op : StateM Memory α) (names : List QualifiedName) : Prop :=
  ∀ m, (op.run m).2.lineages.GrowsTo (h.request names m.lineages)

namespace Asks

variable {op : StateM Memory α}

protected theorem pure (a : α) : h.Asks (pure a) [] := fun _ => rfl

protected theorem bind {next : α → StateM Memory β} (first : h.Asks op names)
    (second : ∀ a, h.Asks (next a) names') : h.Asks (op >>= next) (names ++ names') := by
  intro m
  rw [request_append, ← first m]
  exact second (op.run m).1 (op.run m).2

protected theorem map (f : α → β) (asks : h.Asks op names) :
    h.Asks (do return f (← op)) names := by
  simpa using asks.bind fun a => .pure (f a)

/-- Storing a result elsewhere makes no request. -/
protected theorem store (asks : h.Asks op names) (keep : α → Memory → Memory)
    (keeps : ∀ a m, (keep a m).lineages = m.lineages) :
    h.Asks (do let a ← op; modify (keep a); return a) names :=
  fun m => (keeps _ _).trans (asks m)

/-- The requests made so far may be followed by others that are left out. -/
theorem within (asks : h.Asks op names) (later : List QualifiedName) :
    h.AsksWithin op (names ++ later) := by
  intro m
  rw [request_append, ← asks m]
  exact h.growsTo_request later _

theorem bind_within {next : α → StateM Memory β} (first : h.Asks op names)
    (second : ∀ a, h.AsksWithin (next a) names') :
    h.AsksWithin (op >>= next) (names ++ names') := by
  intro m
  rw [request_append, ← first m]
  exact second (op.run m).1 (op.run m).2

end Asks

/-! ## Tables -/

theorem asks_openTable (ns : Namespace) : h.Asks (h.openTable ns) [] := by
  intro m
  cases known : m.tables.find? ns with
  | some table => rw [run_openTable_of_known known, request_nil]
  | none => rw [run_openTable_of_new known, request_nil]

theorem asks_openChildren? (name : QualifiedName) : h.Asks (h.openChildren? name) [] := by
  unfold openChildren?
  cases h.environment.normalize? name with
  | none => exact .pure none
  | some target => exact (asks_openTable _).map some

theorem asks_openEnclosing? (name : QualifiedName) : h.Asks (h.openEnclosing? name) [] := by
  unfold openEnclosing?
  cases name.parent? with
  | none => exact (asks_openTable .root).map some
  | some parent => exact asks_openChildren? parent

theorem asks_openScope? (scope : Scope) : h.Asks (h.openScope? scope) [] := by
  cases scope with
  | root => exact (asks_openTable .root).map some
  | inside name => exact asks_openChildren? name
  | around frame => exact asks_openEnclosing? frame

theorem asks_lookupIn (name : String) (scope : Scope) : h.Asks (h.lookupIn name scope) [] := by
  unfold lookupIn
  cases scope.shows name with
  | false => exact .pure _
  | true => exact (asks_openScope? scope).bind fun table? => by cases table? <;> exact .pure _

theorem asks_constantAt (name : QualifiedName) : h.Asks (h.constantAt name) [] :=
  (asks_openEnclosing? name).bind fun table? => by cases table? <;> exact .pure _

/-! ## Searching and gathering -/

theorem asks_search (name : String) (scopes : List Scope) : h.Asks (h.search name scopes) [] := by
  induction scopes with
  | nil => exact .pure _
  | cons scope outer ih =>
    refine (asks_lookupIn name scope).bind fun here => ?_
    cases here with
    | absent => exact ih
    | found c => exact .pure _
    | ambiguous conflict => exact .pure _

theorem asks_gather (scopes : List Scope) : h.Asks (h.gather scopes) [] := by
  induction scopes with
  | nil => exact .pure _
  | cons scope outer ih =>
    refine ih.bind fun listing => (asks_openScope? scope).bind fun table? => ?_
    cases table? <;> exact .pure _

/-- A search by stages makes the requests of its first stages, up to the one that has the name. -/
theorem asksWithin_searchStages (name : String) {stages : List (StateM Memory (List Scope))}
    {requests : List (List QualifiedName)} (asks : List.Forall₂ h.Asks stages requests) :
    h.AsksWithin (h.searchStages name stages) requests.flatten := by
  induction asks with
  | nil => exact (Asks.pure Resolution.absent).within []
  | cons stage _ ih =>
    refine stage.bind_within fun scopes => (asks_search name scopes).bind_within fun first => ?_
    cases first with
    | absent => exact ih
    | found c => exact (Asks.pure _).within _
    | ambiguous conflict => exact (Asks.pure _).within _

/-! ## Ancestors -/

theorem asks_recallAncestors? (name : QualifiedName) : h.Asks (h.recallAncestors? name) [name] :=
  fun m => by rw [run_recallAncestors?, request_cons, request_nil]

theorem asks_inheritedScopes (context : Context) :
    h.Asks (h.inheritedScopes context) context.innermost?.toList := by
  unfold inheritedScopes
  cases context.innermost? with
  | none => exact .pure _
  | some frame => exact (asks_recallAncestors? frame).map _

theorem asks_objectScopes : h.Asks h.objectScopes [h.builtins.object] :=
  (asks_recallAncestors? _).map _

/-- A name that stands for nothing has no ancestors, and asking for them makes nothing known. -/
theorem request_of_normalize?_eq_none {name : QualifiedName}
    (nowhere : h.environment.normalize? name = none) (known : Lineages) :
    h.request [name] known = known := by
  rw [request_cons, request_nil, run_ancestors?_of_none nowhere]

theorem request_of_leads {name target : QualifiedName}
    (leads : h.environment.normalize? name = some target) (known : Lineages) :
    h.request [target] known = h.request [name] known := by
  simp only [request_cons, request_nil, run_ancestors?_of_some leads,
    run_ancestors?_of_some (Environment.normalize?_of_normalize? leads)]

theorem asks_memberChain? (name : QualifiedName) : h.Asks (h.memberChain? name) [name] := by
  intro m
  unfold memberChain?
  cases leads : h.environment.normalize? name with
  | none => exact (request_of_normalize?_eq_none leads _).symm
  | some target =>
    rw [← request_of_leads leads]
    exact (asks_recallAncestors? target).map _ m

theorem asks_allScopes (context : Context) :
    h.Asks (h.allScopes context) (h.builtins.object :: context.innermost?.toList) :=
  asks_objectScopes.bind fun _ => (asks_inheritedScopes context).map _

/-! ## Queries -/

theorem asksWithin_resolve (name : String) (context : Context) :
    h.AsksWithin (h.resolve name context)
      (context.innermost?.toList ++ [h.builtins.object]) := by
  unfold resolve
  cases h.isDeclaredSomewhere name with
  | false => exact (Asks.pure _).within _
  | true =>
    have stages : List.Forall₂ h.Asks [pure context.lexicalScopes, h.inheritedScopes context,
        pure h.outermostScopes, h.objectScopes]
        [[], context.innermost?.toList, [], [h.builtins.object]] :=
      .cons (.pure _) (.cons (asks_inheritedScopes context)
        (.cons (.pure _) (.cons asks_objectScopes .nil)))
    simpa using asksWithin_searchStages name stages

theorem asksWithin_resolveChild (qualifier : QualifiedName) (name : String) :
    h.AsksWithin (h.resolveChild qualifier name) [qualifier] := by
  unfold resolveChild
  cases h.isDeclaredSomewhere name with
  | false => exact (Asks.pure _).within _
  | true =>
    change h.AsksWithin _ ([qualifier] ++ [])
    refine (asks_memberChain? qualifier).bind_within fun chain? => ?_
    cases chain? with
    | none => exact (Asks.pure _).within _
    | some chain => exact (asks_search name _).within _

theorem asks_gatherChildren? (target : QualifiedName) :
    h.Asks (h.gatherChildren? target) [target] := by
  refine (asks_memberChain? target).bind fun chain? => ?_
  cases chain? with
  | none => exact .pure _
  | some chain => exact (asks_gather _).map some

theorem asks_resolveTypeName (name : QualifiedName) (context : Context) :
    h.Asks (h.resolveTypeName name context) [] := by
  intro m
  by_cases absolute : name.isAbsolute
  · rw [run_resolveTypeName_of_absolute absolute, request_nil]
  cases known : m.typeNames.find? (name, context) with
  | some meaning => rw [run_resolveTypeName_of_known absolute known, request_nil]
  | none => rw [run_resolveTypeName_of_new absolute known, request_nil]

/-! ## With nothing remembered -/

theorem lineages_constants (context : Context) :
    ((h.constants context).run ∅).2.lineages =
      h.lineagesAfter (h.builtins.object :: context.innermost?.toList) := by
  have asks := ((asks_allScopes (h := h) context).bind asks_gather).store
    (fun listing m => { m with contexts := m.contexts.insertIfNew context listing }) fun _ _ => rfl
  rw [run_constants_of_new rfl, asks ∅, List.append_nil]
  rfl

theorem lineages_children (qualifier : QualifiedName) :
    ((h.children qualifier).run ∅).2.lineages = h.lineagesAfter [qualifier] := by
  cases leads : h.environment.normalize? qualifier with
  | none =>
    unfold children
    rw [leads]
    exact (request_of_normalize?_eq_none leads _).symm
  | some target =>
    have asks := (asks_gatherChildren? (h := h) target).store (keepChildren target)
      fun listing? _ => by cases listing? <;> rfl
    rw [run_children_of_new leads rfl, asks ∅]
    exact request_of_leads leads ∅

/-- With nothing remembered, a query makes no requests beyond its own. -/
theorem growsTo_lineagesAfter_requests (h : Hierarchy) (query : Query) :
    ((h.ask query).run ∅).2.lineages.GrowsTo (h.lineagesAfter (query.requests h.builtins)) := by
  have all {known : Lineages} {names : List QualifiedName} (same : known = h.lineagesAfter names) :
      known.GrowsTo (h.lineagesAfter names) := same ▸ .refl known
  cases query with
  | rootTable => exact all ((asks_openTable .root).map _ ∅)
  | childTable name => exact all ((asks_openChildren? name).map _ ∅)
  | enclosingTable name => exact all ((asks_openEnclosing? name).map _ ∅)
  | constantAt name => exact all ((asks_constantAt name).map _ ∅)
  | ancestors name => exact all ((asks_recallAncestors? name).map _ ∅)
  | resolve name context => exact asksWithin_resolve name context ∅
  | resolveChild qualifier name => exact asksWithin_resolveChild qualifier name ∅
  | constants context => exact all (lineages_constants context)
  | children qualifier => exact all (lineages_children qualifier)
  | typeName name context => exact all ((asks_resolveTypeName name context).map _ ∅)

/-- With nothing remembered, a query is answered from the lineages that its requests lead to. -/
theorem ask_empty_eq_answer (h : Hierarchy) (query : Query) :
    ((h.ask query).run ∅).1 = h.answer (h.kinAfter (query.requests h.builtins)) query := by
  obtain ⟨coherent, -, right⟩ := settles_ask query ∅ (Memory.coherent_empty h)
  -- The lineages that a search has left out would not change its answer.
  obtain ⟨coherent', grows⟩ := coherent.add_lineages (h.grown_lineagesAfter _)
    (h.growsTo_lineagesAfter_requests query)
  exact right _ coherent' grows

end Hierarchy

end NameResolution
