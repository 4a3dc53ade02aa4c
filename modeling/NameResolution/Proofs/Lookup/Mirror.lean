import NameResolution.Proofs.Lookup.Transcript
import NameResolution.Proofs.OrderedMap.Match

/-!
# Lookups in two hierarchies

Two hierarchies that lookups read the same of are told apart by no run of lookups, even where
cyclic ancestry makes the answers depend on what was asked before. The two runs go side by side: as
long as the memories mirror each other, the next lookup gives the same and leaves memories that
mirror each other again. There is one law for each operation, from the tables up to the queries.

## Main definitions

* `Answer.Same` — two answers that differ at most in the order of names.
* `Memory.Mirrors` — two memories that differ at most in the order of names.
* `Hierarchy.Alike` — lookups read the same of two hierarchies.
* `Hierarchy.Mirrored` — two computations that go side by side.

## Main statements

* `Hierarchy.Mirrored.bind` — one step after the other.
* `Hierarchy.Alike.mirrored_ask` — the answers to one query.
* `Hierarchy.Alike.same_ask_memoryAfter` — the answers after the same run of queries.
-/

namespace NameResolution

/-! ## Tables, listings and answers -/

/-- The tables have the same candidates for each name. -/
def ConstantTable.Same (table table' : ConstantTable) : Prop :=
  ∀ name, table.candidates name = table'.candidates name

theorem ConstantTable.Same.lookup_eq {table table' : ConstantTable} (same : table.Same table')
    (name : String) : table.lookup name = table'.lookup name := by
  rw [lookup, lookup, same]

/-- The listings show the same constant for each name. -/
def Listing.Same (listing listing' : Listing) : Prop :=
  ∀ name, listing.find? name = listing'.find? name

theorem Scope.same_merge (scope : Scope) {table table' : ConstantTable}
    {listing listing' : Listing} (tables : table.Same table') (listings : listing.Same listing') :
    (scope.merge table listing).Same (scope.merge table' listing') := by
  intro name
  rw [Hierarchy.find?_merge, Hierarchy.find?_merge, ConstantTable.get?, ConstantTable.get?,
    tables, listings]

/-- The answers say the same, in whatever order their tables and listings have the names. -/
inductive Answer.Same : Answer → Answer → Prop
  | table {table? table?' : Option ConstantTable}
      (same : Option.Rel ConstantTable.Same table? table?') : Same (.table table?) (.table table?')
  | resolution (r : Resolution) : Same (.resolution r) (.resolution r)
  | ancestors (line? : Option (List QualifiedName)) : Same (.ancestors line?) (.ancestors line?)
  | listing {listing? listing?' : Option Listing}
      (same : Option.Rel Listing.Same listing? listing?') :
      Same (.listing listing?) (.listing listing?')
  | typeName (name? : Option QualifiedName) : Same (.typeName name?) (.typeName name?)

/-- A resolution is answered with itself. -/
theorem Answer.Same.resolution_eq {answer answer' : Answer} (same : answer.Same answer')
    {r : Resolution} (resolved : answer = .resolution r) : answer' = .resolution r := by
  cases same with
  | resolution => exact resolved
  | _ => cases resolved

/-! ## Memories -/

/-- The memories hold the same lineages and type names, and tables and listings that differ at most
in the order of names. -/
structure Memory.Mirrors (m m' : Memory) : Prop where
  lineages : m.lineages = m'.lineages
  tables : m.tables.Match ConstantTable.Same m'.tables
  contexts : m.contexts.Match Listing.Same m'.contexts
  children : m.children.Match Listing.Same m'.children
  typeNames : m.typeNames.Match Eq m'.typeNames

theorem Memory.mirrors_empty : (∅ : Memory).Mirrors ∅ :=
  ⟨rfl, OrderedMap.match_empty _, OrderedMap.match_empty _, OrderedMap.match_empty _,
    OrderedMap.match_empty _⟩

namespace Hierarchy

variable {h h' : Hierarchy} {α β : Type}

/-! ## Computations -/

/-- From memories that mirror each other, the computations give related results and leave memories
that mirror each other. -/
def Mirrored (R : α → α → Prop) (op op' : StateM Memory α) : Prop :=
  ∀ m m', m.Mirrors m' →
    R (op.run m).1 (op'.run m').1 ∧ (op.run m).2.Mirrors (op'.run m').2

namespace Mirrored

variable {R : α → α → Prop} {S : β → β → Prop} {op op' : StateM Memory α}

protected theorem pure {a a' : α} (related : R a a') : Mirrored R (pure a) (pure a') :=
  fun _ _ mirrors => ⟨related, mirrors⟩

protected theorem bind {next next' : α → StateM Memory β} (first : Mirrored R op op')
    (second : ∀ a a', R a a' → Mirrored S (next a) (next' a')) :
    Mirrored S (op >>= next) (op' >>= next') := by
  intro m m' mirrors
  obtain ⟨related, mirrors'⟩ := first m m' mirrors
  exact second _ _ related _ _ mirrors'

/-- After steps with equal results, the rest goes on from one result. -/
protected theorem bind_eq {next next' : α → StateM Memory β} (first : Mirrored Eq op op')
    (second : ∀ a, Mirrored S (next a) (next' a)) : Mirrored S (op >>= next) (op' >>= next') :=
  first.bind fun a _ same => same ▸ second a

protected theorem map {f f' : α → β} (mirrored : Mirrored R op op')
    (maps : ∀ a a', R a a' → S (f a) (f' a')) :
    Mirrored S (do return f (← op)) (do return f' (← op')) :=
  mirrored.bind fun a a' related => .pure (maps a a' related)

/-- Related results may be stored where the memories mirror each other afterwards. -/
protected theorem store {keep : α → Memory → Memory} (mirrored : Mirrored R op op')
    (keeps : ∀ a a' m m', R a a' → m.Mirrors m' → (keep a m).Mirrors (keep a' m')) :
    Mirrored R (do let a ← op; modify (keep a); return a)
      (do let a ← op'; modify (keep a); return a) := by
  intro m m' mirrors
  obtain ⟨related, mirrors'⟩ := mirrored m m' mirrors
  exact ⟨related, keeps _ _ _ _ related mirrors'⟩

end Mirrored

/-- Lookups of constants read the same of both hierarchies. -/
structure Alike (h h' : Hierarchy) : Prop where
  builtins : h.builtins = h'.builtins
  normalize? : ∀ name, h.environment.normalize? name = h'.environment.normalize? name
  isClass : ∀ name, (h.environment.module? name).any (·.isClass) =
    (h'.environment.module? name).any (·.isClass)
  ancestors? : ∀ name, h.ancestors? name = h'.ancestors? name
  table : ∀ ns, (h.environment.table ns).Same (h'.environment.table ns)

namespace Alike

variable (alike : h.Alike h')

include alike

/-! ## Tables -/

theorem mirrored_openTable (ns : Namespace) :
    Mirrored ConstantTable.Same (h.openTable ns) (h'.openTable ns) := by
  intro m m' mirrors
  rcases mirrors.tables.cases ns with ⟨new, new'⟩ | ⟨table, table', known, known', same⟩
  · rw [run_openTable_of_new new, run_openTable_of_new new']
    exact ⟨alike.table ns,
      { mirrors with tables := mirrors.tables.insertIfNew ns (alike.table ns) }⟩
  · rw [run_openTable_of_known known, run_openTable_of_known known']
    exact ⟨same, mirrors⟩

theorem mirrored_openChildren? (name : QualifiedName) :
    Mirrored (Option.Rel ConstantTable.Same) (h.openChildren? name) (h'.openChildren? name) := by
  unfold openChildren?
  rw [← alike.normalize?]
  cases h.environment.normalize? name with
  | none => exact .pure .none
  | some target => exact (alike.mirrored_openTable _).map fun _ _ => .some

theorem mirrored_openRoot :
    Mirrored (Option.Rel ConstantTable.Same) (do return some (← h.openRoot))
      (do return some (← h'.openRoot)) :=
  (alike.mirrored_openTable .root).map fun _ _ => .some

theorem mirrored_openEnclosing? (name : QualifiedName) :
    Mirrored (Option.Rel ConstantTable.Same) (h.openEnclosing? name) (h'.openEnclosing? name) := by
  unfold openEnclosing?
  cases name.parent? with
  | none => exact alike.mirrored_openRoot
  | some parent => exact alike.mirrored_openChildren? parent

theorem mirrored_openScope? (scope : Scope) :
    Mirrored (Option.Rel ConstantTable.Same) (h.openScope? scope) (h'.openScope? scope) := by
  cases scope with
  | root => exact alike.mirrored_openRoot
  | inside name => exact alike.mirrored_openChildren? name
  | around frame => exact alike.mirrored_openEnclosing? frame

/-! ## Searching and gathering -/

theorem mirrored_lookupIn (name : String) (scope : Scope) :
    Mirrored Eq (h.lookupIn name scope) (h'.lookupIn name scope) := by
  unfold lookupIn
  cases scope.shows name with
  | false => exact .pure rfl
  | true =>
    refine (alike.mirrored_openScope? scope).bind fun table? table?' same => ?_
    cases same with
    | none => exact .pure rfl
    | some same => exact .pure (same.lookup_eq name)

theorem mirrored_constantAt (name : QualifiedName) :
    Mirrored Eq (h.constantAt name) (h'.constantAt name) := by
  refine (alike.mirrored_openEnclosing? name).bind fun table? table?' same => ?_
  cases same with
  | none => exact .pure rfl
  | some same => exact .pure (same.lookup_eq name.last)

theorem mirrored_search (name : String) (scopes : List Scope) :
    Mirrored Eq (h.search name scopes) (h'.search name scopes) := by
  induction scopes with
  | nil => exact .pure rfl
  | cons scope outer ih =>
    refine (alike.mirrored_lookupIn name scope).bind_eq fun here => ?_
    cases here with
    | absent => exact ih
    | found c => exact .pure rfl
    | ambiguous conflict => exact .pure rfl

theorem mirrored_searchStages (name : String) {stages stages' : List (StateM Memory (List Scope))}
    (mirrored : List.Forall₂ (Mirrored Eq) stages stages') :
    Mirrored Eq (h.searchStages name stages) (h'.searchStages name stages') := by
  induction mirrored with
  | nil => exact .pure rfl
  | cons stage _ ih =>
    refine stage.bind_eq fun scopes => (alike.mirrored_search name scopes).bind_eq fun first => ?_
    cases first with
    | absent => exact ih
    | found c => exact .pure rfl
    | ambiguous conflict => exact .pure rfl

theorem mirrored_gather (scopes : List Scope) :
    Mirrored Listing.Same (h.gather scopes) (h'.gather scopes) := by
  induction scopes with
  | nil => exact .pure fun _ => rfl
  | cons scope outer ih =>
    refine ih.bind fun listing listing' listings =>
      (alike.mirrored_openScope? scope).bind fun table? table?' tables => ?_
    cases tables with
    | none => exact .pure listings
    | some tables => exact .pure (scope.same_merge tables listings)

/-! ## Ancestors -/

theorem mirrored_recallAncestors? (name : QualifiedName) :
    Mirrored Eq (h.recallAncestors? name) (h'.recallAncestors? name) := by
  intro m m' mirrors
  rw [run_recallAncestors?, run_recallAncestors?, mirrors.lineages, alike.ancestors?]
  exact ⟨rfl, { mirrors with lineages := rfl }⟩

theorem mirrored_inheritedScopes (context : Context) :
    Mirrored Eq (h.inheritedScopes context) (h'.inheritedScopes context) := by
  unfold inheritedScopes
  cases context.innermost? with
  | none => exact .pure rfl
  | some frame =>
    refine (alike.mirrored_recallAncestors? frame).bind_eq fun line? => ?_
    rw [alike.builtins]
    exact .pure rfl

theorem mirrored_objectScopes : Mirrored Eq h.objectScopes h'.objectScopes := by
  unfold objectScopes
  rw [alike.builtins]
  exact (alike.mirrored_recallAncestors? _).bind_eq fun line? => .pure rfl

theorem mirrored_memberChain? (name : QualifiedName) :
    Mirrored Eq (h.memberChain? name) (h'.memberChain? name) := by
  unfold memberChain?
  rw [← alike.normalize?]
  cases h.environment.normalize? name with
  | none => exact .pure rfl
  | some target =>
    refine (alike.mirrored_recallAncestors? target).bind_eq fun line? => ?_
    rw [alike.builtins, alike.isClass]
    exact .pure rfl

/-! ## Lookups -/

theorem mirrored_resolve (name : String) (context : Context)
    (pooled : h.isDeclaredSomewhere name = h'.isDeclaredSomewhere name) :
    Mirrored Eq (h.resolve name context) (h'.resolve name context) := by
  unfold resolve
  rw [pooled]
  cases h'.isDeclaredSomewhere name with
  | false => exact .pure rfl
  | true =>
    have outermost : h.outermostScopes = h'.outermostScopes := by
      rw [outermostScopes, outermostScopes, alike.builtins]
    rw [outermost]
    exact alike.mirrored_searchStages name <|
      .cons (.pure rfl) <| .cons (alike.mirrored_inheritedScopes context) <|
      .cons (.pure rfl) <| .cons alike.mirrored_objectScopes .nil

theorem mirrored_resolveChild (qualifier : QualifiedName) (name : String)
    (pooled : h.isDeclaredSomewhere name = h'.isDeclaredSomewhere name) :
    Mirrored Eq (h.resolveChild qualifier name) (h'.resolveChild qualifier name) := by
  unfold resolveChild
  rw [pooled]
  cases h'.isDeclaredSomewhere name with
  | false => exact .pure rfl
  | true =>
    refine (alike.mirrored_memberChain? qualifier).bind_eq fun chain? => ?_
    cases chain? with
    | none => exact .pure rfl
    | some chain => exact alike.mirrored_search name _

/-! ## Listings -/

theorem mirrored_allScopes (context : Context) :
    Mirrored Eq (h.allScopes context) (h'.allScopes context) := by
  refine alike.mirrored_objectScopes.bind_eq fun object =>
    (alike.mirrored_inheritedScopes context).bind_eq fun inherited => .pure ?_
  rw [outermostScopes, outermostScopes, alike.builtins]

theorem mirrored_constants (context : Context) :
    Mirrored Listing.Same (h.constants context) (h'.constants context) := by
  intro m m' mirrors
  rcases mirrors.contexts.cases context with ⟨new, new'⟩ | ⟨_, _, known, known', same⟩
  · rw [run_constants_of_new new, run_constants_of_new new']
    refine Mirrored.store ((alike.mirrored_allScopes context).bind_eq alike.mirrored_gather)
      (fun listing listing' m m' same mirrors => ?_) m m' mirrors
    exact { mirrors with contexts := mirrors.contexts.insertIfNew context same }
  · rw [run_constants_of_known known, run_constants_of_known known']
    exact ⟨same, mirrors⟩

theorem mirrored_gatherChildren? (target : QualifiedName) :
    Mirrored (Option.Rel Listing.Same) (h.gatherChildren? target) (h'.gatherChildren? target) := by
  refine (alike.mirrored_memberChain? target).bind_eq fun chain? => ?_
  cases chain? with
  | none => exact .pure .none
  | some chain => exact (alike.mirrored_gather _).map fun _ _ => .some

theorem mirrored_children (qualifier : QualifiedName) :
    Mirrored (Option.Rel Listing.Same) (h.children qualifier) (h'.children qualifier) := by
  cases leads : h.environment.normalize? qualifier with
  | none =>
    unfold children
    rw [← alike.normalize?, leads]
    exact .pure .none
  | some target =>
    have leads' := alike.normalize? qualifier ▸ leads
    intro m m' mirrors
    rcases mirrors.children.cases target with ⟨new, new'⟩ | ⟨_, _, known, known', same⟩
    · rw [run_children_of_new leads new, run_children_of_new leads' new']
      refine (alike.mirrored_gatherChildren? target).store
        (fun listing? listing?' m m' same mirrors => ?_) m m' mirrors
      cases same with
      | none => exact mirrors
      | some same => exact { mirrors with children := mirrors.children.insertIfNew target same }
    · rw [run_children_of_known leads known, run_children_of_known leads' known']
      exact ⟨.some same, mirrors⟩

end Alike

/-! ## Queries -/

theorem mirrored_resolveTypeName {name : QualifiedName} {context : Context}
    (path_eq : h.environment.typePath? name context = h'.environment.typePath? name context) :
    Mirrored Eq (h.resolveTypeName name context) (h'.resolveTypeName name context) := by
  intro m m' mirrors
  by_cases absolute : name.isAbsolute
  · rw [run_resolveTypeName_of_absolute absolute, run_resolveTypeName_of_absolute absolute]
    exact ⟨rfl, mirrors⟩
  rcases mirrors.typeNames.cases (name, context) with ⟨new, new'⟩ | ⟨_, _, known, known', same⟩
  · rw [run_resolveTypeName_of_new absolute new, run_resolveTypeName_of_new absolute new', path_eq]
    exact ⟨rfl, { mirrors with typeNames := mirrors.typeNames.insertIfNew (name, context) rfl }⟩
  · rw [run_resolveTypeName_of_known absolute known, run_resolveTypeName_of_known absolute known']
    exact ⟨same, mirrors⟩

section Queries

variable (alike : h.Alike h')
  (pooled : ∀ name, h.isDeclaredSomewhere name = h'.isDeclaredSomewhere name)
  (path_eq : ∀ name context,
    h.environment.typePath? name context = h'.environment.typePath? name context)

include alike pooled path_eq

theorem Alike.mirrored_ask (query : Query) : Mirrored Answer.Same (h.ask query) (h'.ask query) := by
  cases query with
  | rootTable =>
    exact (alike.mirrored_openTable .root).map fun _ _ same => .table (.some same)
  | childTable name => exact (alike.mirrored_openChildren? name).map fun _ _ => .table
  | enclosingTable name => exact (alike.mirrored_openEnclosing? name).map fun _ _ => .table
  | constantAt name =>
    exact (alike.mirrored_constantAt name).bind_eq fun r => .pure (.resolution r)
  | ancestors name =>
    exact (alike.mirrored_recallAncestors? name).bind_eq fun line? => .pure (.ancestors line?)
  | resolve name context =>
    exact (alike.mirrored_resolve name context (pooled name)).bind_eq
      fun r => .pure (.resolution r)
  | resolveChild qualifier name =>
    exact (alike.mirrored_resolveChild qualifier name (pooled name)).bind_eq
      fun r => .pure (.resolution r)
  | constants context =>
    exact (alike.mirrored_constants context).map fun _ _ same => .listing (.some same)
  | children qualifier => exact (alike.mirrored_children qualifier).map fun _ _ => .listing
  | typeName name context =>
    exact (mirrored_resolveTypeName (path_eq name context)).bind_eq
      fun name? => .pure (.typeName name?)

theorem Alike.mirrored_askAll (queries : List Query) :
    Mirrored (List.Forall₂ Answer.Same) (h.askAll queries) (h'.askAll queries) := by
  unfold askAll
  induction queries with
  | nil => exact .pure .nil
  | cons query queries ih =>
    rw [List.mapM_cons, List.mapM_cons]
    exact (alike.mirrored_ask pooled path_eq query).bind fun _ _ same =>
      ih.map fun _ _ => .cons same

/-- After the same queries, a query is answered the same. -/
theorem Alike.same_ask_memoryAfter (queries : List Query) (query : Query) :
    Answer.Same ((h.ask query).run (h.memoryAfter queries)).1
      ((h'.ask query).run (h'.memoryAfter queries)).1 :=
  (alike.mirrored_ask pooled path_eq query _ _
    (alike.mirrored_askAll pooled path_eq queries _ _ Memory.mirrors_empty).2).1

end Queries

end Hierarchy

end NameResolution
