import NameResolution.Proofs.Lookup.Coherence

/-!
# Answers through the memory

Every lookup settles its result: it answers what a lookup without memory answers from the lineages
known in any later memory. There is one law for each operation, from the tables up to the queries.

## Main definitions

* `Hierarchy.gatherChildren?` — the listing of a class or module, worked out afresh.

## Main statements

* `Hierarchy.settles_searchStages` — a search that leaves later stages out decides as one that
  does not.
* `Hierarchy.settles_ask` — the answer to a query.
-/

namespace NameResolution

namespace Hierarchy

variable {h : Hierarchy}

/-! ## Tables -/

theorem run_openTable_of_known {m : Memory} {ns : Namespace} {table : ConstantTable}
    (known : m.tables.find? ns = some table) : (h.openTable ns).run m = (table, m) := by
  rw [openTable]
  simp [known]
  rfl

theorem run_openTable_of_new {m : Memory} {ns : Namespace} (new : m.tables.find? ns = none) :
    (h.openTable ns).run m = (h.environment.table ns,
      { m with tables := m.tables.insertIfNew ns (h.environment.table ns) }) := by
  rw [openTable]
  simp [new]
  rfl

theorem settles_openTable (ns : Namespace) :
    h.Settles (h.openTable ns) fun _ table => table = h.environment.table ns := by
  intro m coherent
  cases known : m.tables.find? ns with
  | some table =>
    rw [run_openTable_of_known known]
    exact ⟨coherent, .refl m, fun _ _ _ => coherent.tables ns table known⟩
  | none =>
    rw [run_openTable_of_new known]
    have grows : m.GrowsTo
        { m with tables := m.tables.insertIfNew ns (h.environment.table ns) } :=
      { Memory.GrowsTo.refl m with tables := .insertIfNew m.tables ns _ }
    refine ⟨?_, grows, fun _ _ _ => rfl⟩
    refine ⟨coherent.lineages, fun ns' table found => ?_, ?_, ?_, coherent.typeNames⟩
    · obtain old | ⟨rfl, rfl⟩ := OrderedMap.find?_insertIfNew_cases found
      · exact coherent.tables ns' table old
      · rfl
    · exact coherent.contexts_mono grows
    · exact coherent.children_mono grows

theorem settles_openChildren? (name : QualifiedName) :
    h.Settles (h.openChildren? name) fun _ table? => table? = h.childTable? name := by
  unfold openChildren? childTable?
  cases h.environment.normalize? name with
  | none => exact .pure fun _ _ => rfl
  | some target =>
    refine (settles_openTable target.toNamespace).map some fun _ table same => ?_
    rw [same, Option.map_some]

theorem settles_openEnclosing? (name : QualifiedName) :
    h.Settles (h.openEnclosing? name) fun _ table? => table? = h.enclosingTable? name := by
  unfold openEnclosing? enclosingTable?
  cases name.parent? with
  | none => exact (settles_openTable .root).map some fun _ _ => congrArg some
  | some parent => exact settles_openChildren? parent

theorem settles_openScope? (scope : Scope) :
    h.Settles (h.openScope? scope) fun _ table? => table? = h.scopeTable? scope := by
  cases scope with
  | root => exact (settles_openTable .root).map some fun _ _ => congrArg some
  | inside name => exact settles_openChildren? name
  | around frame => exact settles_openEnclosing? frame

/-! ## Searching and gathering -/

theorem settles_lookupIn (name : String) (scope : Scope) :
    h.Settles (h.lookupIn name scope) fun _ r => r = h.verdict name scope := by
  unfold lookupIn verdict
  cases scope.shows name with
  | false => exact .pure fun _ _ => rfl
  | true =>
    refine (settles_openScope? scope).bind fun table? => ?_
    cases table? with
    | none => exact .pure fun _ _ same => by simp [← same]
    | some table => exact .pure fun _ _ same => by simp [← same]

theorem settles_constantAt (name : QualifiedName) :
    h.Settles (h.constantAt name) fun _ r => r = h.verdict name.last (.around name) := by
  refine (settles_openEnclosing? name).bind fun table? => ?_
  cases table? with
  | none => exact .pure fun _ _ same => by simp [verdict, scopeTable?, Scope.shows, ← same]
  | some table => exact .pure fun _ _ same => by simp [verdict, scopeTable?, Scope.shows, ← same]

theorem settles_search (name : String) (scopes : List Scope) :
    h.Settles (h.search name scopes) fun _ r => r = h.decision name scopes := by
  induction scopes with
  | nil => exact .pure fun _ _ => rfl
  | cons scope outer ih =>
    refine (settles_lookupIn name scope).bind fun here => ?_
    cases here with
    | absent =>
      refine ih.mono fun m r _ same here => ?_
      rw [decision, ← here, same, Resolution.absent_orElse]
    | found c => exact .pure fun _ _ here => by rw [decision, ← here, Resolution.found_orElse]
    | ambiguous conflict =>
      exact .pure fun _ _ here => by rw [decision, ← here, Resolution.ambiguous_orElse]

/-- A search by stages decides as a search of all scopes, those of the stages that it leaves out
included. -/
theorem settles_searchStages {name : String} {stages : List (StateM Memory (List Scope))}
    (places : List (Memory → List Scope))
    (settles : List.Forall₂
      (fun stage place => h.Settles stage fun m scopes => scopes = place m) stages places) :
    h.Settles (h.searchStages name stages) fun m r =>
      r = h.decision name (places.flatMap (· m)) := by
  induction settles with
  | nil => exact .pure fun _ _ => rfl
  | cons stage _ ih =>
    refine stage.bind fun scopes => (settles_search name scopes).bind fun first => ?_
    cases first with
    | absent =>
      refine ih.mono fun m r _ same first place => ?_
      rw [List.flatMap_cons, decision_append, ← place, ← first, same, Resolution.absent_orElse]
    -- The later stages are left out, and the decision hides whatever they would have given.
    | found c =>
      refine .pure fun m _ first place => ?_
      rw [List.flatMap_cons, decision_append, ← place, ← first, Resolution.found_orElse]
    | ambiguous conflict =>
      refine .pure fun m _ first place => ?_
      rw [List.flatMap_cons, decision_append, ← place, ← first, Resolution.ambiguous_orElse]

theorem settles_gather (scopes : List Scope) :
    h.Settles (h.gather scopes) fun _ listing => listing = h.panorama scopes := by
  induction scopes with
  | nil => exact .pure fun _ _ => rfl
  | cons scope outer ih =>
    refine ih.bind fun listing => (settles_openScope? scope).bind fun table? => ?_
    cases table? with
    | none => exact .pure fun _ _ opened same => by rw [panorama, ← opened, same]
    | some table => exact .pure fun _ _ opened same => by rw [panorama, ← opened, same]

/-! ## Ancestors -/

theorem run_recallAncestors? (name : QualifiedName) (m : Memory) :
    (h.recallAncestors? name).run m =
      (((h.ancestors? name).run m.lineages).1,
        { m with lineages := ((h.ancestors? name).run m.lineages).2 }) := rfl

theorem settles_recallAncestors? (name : QualifiedName) :
    h.Settles (h.recallAncestors? name) fun m line? => m.Knows h name ∧ line? = m.kin h name := by
  intro m coherent
  have grows : m.GrowsTo { m with lineages := ((h.ancestors? name).run m.lineages).2 } :=
    { Memory.GrowsTo.refl m with lineages := h.growsTo_ancestors? name m.lineages }
  have knows : Memory.Knows { m with lineages := ((h.ancestors? name).run m.lineages).2 } h name :=
    fun target leads => isSome_ancestors? leads m.lineages
  rw [run_recallAncestors?]
  refine ⟨⟨coherent.lineages.request name, coherent.tables, ?_, ?_, coherent.typeNames⟩, grows, ?_⟩
  · exact coherent.contexts_mono grows
  · exact coherent.children_mono grows
  · intro later _ grows_later
    refine ⟨knows.mono grows_later, ?_⟩
    rw [knows.kin_eq grows_later]
    exact h.fst_ancestors? name m.lineages

theorem settles_inheritedScopes (context : Context) :
    h.Settles (h.inheritedScopes context) fun m scopes =>
      (∀ frame ∈ context.innermost?, m.Knows h frame) ∧
        scopes = h.inheritedFrom (m.kin h) context := by
  unfold inheritedScopes inheritedFrom
  cases context.innermost? with
  | none => exact .pure fun _ _ => ⟨nofun, rfl⟩
  | some frame =>
    refine (settles_recallAncestors? frame).map _ fun m line? recalled => ?_
    obtain ⟨knows, rfl⟩ := recalled
    exact ⟨fun _ mem => Option.mem_some.1 mem ▸ knows, rfl⟩

theorem settles_objectScopes :
    h.Settles h.objectScopes fun m scopes =>
      m.Knows h h.builtins.object ∧ scopes = h.objectFrom (m.kin h) := by
  refine (settles_recallAncestors? _).map _ fun m line? recalled => ?_
  obtain ⟨knows, rfl⟩ := recalled
  exact ⟨knows, rfl⟩

theorem settles_memberChain? (name : QualifiedName) :
    h.Settles (h.memberChain? name) fun m chain? =>
      m.Knows h name ∧ chain? = h.chainFrom? (m.kin h) name := by
  unfold memberChain? chainFrom?
  cases leads : h.environment.normalize? name with
  | none => exact .pure fun m _ => ⟨fun _ leads' => (nomatch leads.symm.trans leads'), rfl⟩
  | some target =>
    refine (settles_recallAncestors? target).map _ fun m line? recalled => ?_
    obtain ⟨knows, rfl⟩ := recalled
    rw [Memory.kin_of_leads leads]
    exact ⟨Memory.knows_of_leads leads knows, rfl⟩

/-! ## Lookups -/

theorem settles_resolve (name : String) (context : Context) :
    h.Settles (h.resolve name context) fun m r => r = h.resolution (m.kin h) name context := by
  unfold resolve resolution
  cases h.isDeclaredSomewhere name with
  | false => exact .pure fun _ _ => rfl
  | true =>
    have stages : h.Settles (h.searchStages name _) _ :=
      settles_searchStages [fun _ => context.lexicalScopes,
        fun m => h.inheritedFrom (m.kin h) context, fun _ => h.outermostScopes,
        fun m => h.objectFrom (m.kin h)] <|
        .cons (.pure fun _ _ => rfl) <|
        .cons ((settles_inheritedScopes context).mono fun _ _ _ => And.right) <|
        .cons (.pure fun _ _ => rfl) <|
        .cons (settles_objectScopes.mono fun _ _ _ => And.right) .nil
    refine stages.mono fun m r _ same => ?_
    simpa [scopesFrom] using same

theorem settles_resolveChild (qualifier : QualifiedName) (name : String) :
    h.Settles (h.resolveChild qualifier name) fun m r =>
      r = h.childResolution (m.kin h) qualifier name := by
  unfold resolveChild childResolution
  cases h.isDeclaredSomewhere name with
  | false => exact .pure fun _ _ => rfl
  | true =>
    refine (settles_memberChain? qualifier).bind fun chain? => ?_
    cases chain? with
    | none => exact .pure fun m _ recalled => by simp [← recalled.2]
    | some chain =>
      refine (settles_search name _).mono fun m r _ same recalled => ?_
      simp [← recalled.2, same]

/-! ## Listings -/

theorem settles_allScopes (context : Context) :
    h.Settles (h.allScopes context) fun m scopes =>
      (∀ name ∈ context.innermost?.toList ++ [h.builtins.object], m.Knows h name) ∧
        scopes = h.scopesFrom (m.kin h) context := by
  refine settles_objectScopes.bind fun object => (settles_inheritedScopes context).bind
    fun inherited => .pure fun m _ second first => ?_
  obtain ⟨knows, rfl⟩ := first
  obtain ⟨knows', rfl⟩ := second
  refine ⟨fun name mem => ?_, rfl⟩
  rcases List.mem_append.1 mem with frame | last
  · exact knows' name (Option.mem_toList.1 frame)
  · exact List.mem_singleton.1 last ▸ knows

theorem settles_gather_allScopes (context : Context) :
    h.Settles (do h.gather (← h.allScopes context)) fun m listing =>
      m.Settled h (.constants context) (.listing (some listing)) := by
  refine (settles_allScopes context).bind fun scopes => (settles_gather scopes).mono
    fun m listing _ gathered found => ?_
  obtain ⟨knows, rfl⟩ := found
  exact ⟨knows, by rw [gathered, answer]⟩

theorem run_constants_of_known {m : Memory} {context : Context} {listing : Listing}
    (known : m.contexts.find? context = some listing) :
    (h.constants context).run m = (listing, m) := by
  rw [constants]
  simp [known]
  rfl

theorem run_constants_of_new {m : Memory} {context : Context}
    (new : m.contexts.find? context = none) :
    (h.constants context).run m =
      (do
        let listing ← (do h.gather (← h.allScopes context))
        modify fun memory => { memory with contexts := memory.contexts.insertIfNew context listing }
        return listing : StateM Memory Listing).run m := by
  rw [constants]
  simp [new]

theorem settles_constants (context : Context) :
    h.Settles (h.constants context) fun m listing =>
      m.Settled h (.constants context) (.listing (some listing)) := by
  intro m coherent
  cases known : m.contexts.find? context with
  | some listing =>
    rw [run_constants_of_known known]
    exact ⟨coherent, .refl m, fun later _ grows =>
      (coherent.contexts context listing known).mono grows⟩
  | none =>
    rw [run_constants_of_new known]
    refine (settles_gather_allScopes context).store
      (fun m listing coherent settled => ?_) m coherent
    have grows : m.GrowsTo { m with contexts := m.contexts.insertIfNew context listing } :=
      { Memory.GrowsTo.refl m with contexts := .insertIfNew m.contexts context listing }
    refine ⟨⟨coherent.lineages, coherent.tables, fun context' listing' found => ?_, ?_,
      coherent.typeNames⟩, grows⟩
    · obtain old | ⟨rfl, rfl⟩ := OrderedMap.find?_insertIfNew_cases found
      · exact (coherent.contexts context' listing' old).mono grows
      · exact settled.mono grows
    · exact coherent.children_mono grows

/-- The listing of what is reached through a class or module, worked out afresh. -/
def gatherChildren? (h : Hierarchy) (target : QualifiedName) : StateM Memory (Option Listing) := do
  match ← h.memberChain? target with
  | none => return none
  | some chain => return some (← h.gather (chain.map .inside))

theorem settles_gatherChildren? (target : QualifiedName) :
    h.Settles (h.gatherChildren? target) fun m listing? =>
      m.Settled h (.children target) (.listing listing?) := by
  refine (settles_memberChain? target).bind fun chain? => ?_
  cases chain? with
  | none =>
    refine .pure fun m _ recalled => ⟨fun name mem => ?_, by rw [answer, ← recalled.2]; rfl⟩
    exact List.mem_singleton.1 mem ▸ recalled.1
  | some chain =>
    refine (settles_gather (chain.map .inside)).map some
      fun m listing gathered recalled => ⟨fun name mem => ?_, ?_⟩
    · exact List.mem_singleton.1 mem ▸ recalled.1
    · rw [answer, ← recalled.2, gathered, Option.map_some]

/-- The listing is stored, if there is one. -/
def keepChildren (target : QualifiedName) : Option Listing → Memory → Memory
  | none, m => m
  | some listing, m => { m with children := m.children.insertIfNew target listing }

theorem growsTo_keepChildren (target : QualifiedName) (listing? : Option Listing) (m : Memory) :
    m.GrowsTo (keepChildren target listing? m) := by
  cases listing? with
  | none => exact .refl m
  | some listing =>
    exact { Memory.GrowsTo.refl m with children := .insertIfNew m.children target listing }

theorem coherent_keepChildren {m : Memory} {target : QualifiedName} {listing? : Option Listing}
    (coherent : m.Coherent h) (settled : m.Settled h (.children target) (.listing listing?)) :
    (keepChildren target listing? m).Coherent h := by
  have grows := growsTo_keepChildren target listing? m
  cases listing? with
  | none => exact coherent
  | some listing =>
    refine ⟨coherent.lineages, coherent.tables, ?_, fun target' listing' found => ?_,
      coherent.typeNames⟩
    · exact coherent.contexts_mono grows
    · obtain old | ⟨rfl, rfl⟩ := OrderedMap.find?_insertIfNew_cases found
      · exact (coherent.children target' listing' old).mono grows
      · exact settled.mono grows

theorem run_children_of_known {m : Memory} {qualifier target : QualifiedName} {listing : Listing}
    (leads : h.environment.normalize? qualifier = some target)
    (known : m.children.find? target = some listing) :
    (h.children qualifier).run m = (some listing, m) := by
  rw [children]
  simp [leads, known]
  rfl

theorem run_children_of_new {m : Memory} {qualifier target : QualifiedName}
    (leads : h.environment.normalize? qualifier = some target)
    (new : m.children.find? target = none) :
    (h.children qualifier).run m =
      (do
        let listing? ← h.gatherChildren? target
        modify (keepChildren target listing?)
        return listing? : StateM Memory (Option Listing)).run m := by
  rw [children, gatherChildren?]
  simp only [leads, new, StateT.run_bind, StateT.run_get, pure_bind, bind_assoc]
  refine bind_congr fun recalled => ?_
  cases recalled.1 with
  | none => rfl
  | some chain => rfl

theorem settles_children (qualifier : QualifiedName) :
    h.Settles (h.children qualifier) fun m listing? =>
      .listing listing? = h.answer (m.kin h) (.children qualifier) := by
  cases leads : h.environment.normalize? qualifier with
  | none =>
    unfold children
    rw [leads]
    exact .pure fun m _ => by simp [answer, chainFrom?, leads]
  | some target =>
    have same (m : Memory) : h.answer (m.kin h) (.children target) =
        h.answer (m.kin h) (.children qualifier) := by
      have leads' := Environment.normalize?_of_normalize? leads
      simp [answer, chainFrom?, leads, leads', Memory.kin_of_leads leads]
    intro m coherent
    cases known : m.children.find? target with
    | some listing =>
      rw [run_children_of_known leads known]
      refine ⟨coherent, .refl m, fun later _ grows => ?_⟩
      exact ((coherent.children target listing known).mono grows).right.trans (same later)
    | none =>
      rw [run_children_of_new leads known]
      have stored := (settles_gatherChildren? (h := h) target).store
        fun m listing? coherent settled => ⟨coherent_keepChildren coherent settled,
          growsTo_keepChildren target listing? m⟩
      exact stored.mono (fun m _ _ settled => settled.right.trans (same m)) m coherent

/-! ## Type names -/

theorem run_resolveTypeName_of_absolute {m : Memory} {name : QualifiedName} {context : Context}
    (absolute : name.isAbsolute = true) :
    (h.resolveTypeName name context).run m = (some name, m) := by
  rw [resolveTypeName]
  simp [absolute]
  rfl

theorem run_resolveTypeName_of_known {m : Memory} {name : QualifiedName} {context : Context}
    {meaning : Option QualifiedName} (relative : ¬name.isAbsolute = true)
    (known : m.typeNames.find? (name, context) = some meaning) :
    (h.resolveTypeName name context).run m = (meaning, m) := by
  rw [resolveTypeName]
  simp [relative, known]
  rfl

theorem run_resolveTypeName_of_new {m : Memory} {name : QualifiedName} {context : Context}
    (relative : ¬name.isAbsolute = true) (new : m.typeNames.find? (name, context) = none) :
    (h.resolveTypeName name context).run m =
      let meaning := (h.environment.typePath? name context).map TypePath.spelled
      (meaning, { m with typeNames := m.typeNames.insertIfNew (name, context) meaning }) := by
  rw [resolveTypeName]
  simp [relative, new]
  rfl

theorem settles_resolveTypeName (name : QualifiedName) (context : Context) :
    h.Settles (h.resolveTypeName name context) fun _ meaning =>
      meaning = h.typeMeaning name context := by
  intro m coherent
  unfold typeMeaning
  by_cases absolute : name.isAbsolute
  · rw [run_resolveTypeName_of_absolute absolute, if_pos absolute]
    exact ⟨coherent, .refl m, fun _ _ _ => rfl⟩
  rw [if_neg absolute]
  cases known : m.typeNames.find? (name, context) with
  | some meaning =>
    rw [run_resolveTypeName_of_known absolute known]
    exact ⟨coherent, .refl m, fun _ _ _ => coherent.typeNames name context meaning known⟩
  | none =>
    rw [run_resolveTypeName_of_new absolute known]
    have grows (meaning) : m.GrowsTo
        { m with typeNames := m.typeNames.insertIfNew (name, context) meaning } :=
      { Memory.GrowsTo.refl m with typeNames := .insertIfNew m.typeNames (name, context) meaning }
    refine ⟨⟨coherent.lineages, coherent.tables, ?_, ?_, ?_⟩, grows _, fun _ _ _ => rfl⟩
    · exact coherent.contexts_mono (grows _)
    · exact coherent.children_mono (grows _)
    · intro name' context' meaning found
      obtain old | ⟨same, rfl⟩ := OrderedMap.find?_insertIfNew_cases found
      · exact coherent.typeNames name' context' meaning old
      · cases same
        rfl

/-! ## Queries -/

/-- The answer to a query is the answer without memory, in every later memory. -/
theorem settles_ask (query : Query) :
    h.Settles (h.ask query) fun m answer => answer = h.answer (m.kin h) query := by
  cases query with
  | rootTable => exact (settles_openTable .root).map _ fun _ _ same => by rw [same]; rfl
  | childTable name => exact (settles_openChildren? name).map _ fun _ _ => congrArg _
  | enclosingTable name => exact (settles_openEnclosing? name).map _ fun _ _ => congrArg _
  | constantAt name => exact (settles_constantAt name).map _ fun _ _ => congrArg _
  | ancestors name =>
    exact (settles_recallAncestors? name).map _ fun _ _ recalled => congrArg _ recalled.2
  | resolve name context => exact (settles_resolve name context).map _ fun _ _ => congrArg _
  | resolveChild qualifier name =>
    exact (settles_resolveChild qualifier name).map _ fun _ _ => congrArg _
  | constants context => exact (settles_constants context).map _ fun _ _ settled => settled.right
  | children qualifier => exact (settles_children qualifier).map _ fun _ _ => id
  | typeName name context =>
    exact (settles_resolveTypeName name context).map _ fun _ _ => congrArg _

end Hierarchy

end NameResolution
