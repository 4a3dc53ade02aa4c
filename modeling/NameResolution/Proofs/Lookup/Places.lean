import NameResolution.Proofs.Lookup.Answer

/-!
# Where names are looked for

The scopes of a lookup stand for namespaces. Told in namespaces, a lookup is decided by the first
one that declares the name, and by nothing but the declarations of the name in it.

## Main definitions

* `Hierarchy.opened` — the namespace of the class or module that a name stands for.
* `Hierarchy.places` — the namespaces that a scope opens to a name.
* `Environment.judge` — what the first namespace that has a name says of it.

## Main statements

* `Hierarchy.decision_eq_judge` — scopes decide as their namespaces do.
* `Hierarchy.pooled_decision_eq_judge` — asking first whether a name is declared anywhere changes
  no decision.
* `Environment.Built.lookup_of_declares` — what a namespace says of a name that it declares.
-/

namespace NameResolution

namespace Environment

variable {env : Environment} {decls : List Declaration} {name : String} {spaces : List Namespace}

/-! ## Namespaces in order -/

/-- What the first namespace that has a name says of it. -/
def judge (env : Environment) (name : String) : List Namespace → Resolution
  | [] => .absent
  | ns :: rest => ((env.table ns).lookup name).orElse (env.judge name rest)

theorem lookup_eq_absent_iff {table : ConstantTable} :
    table.lookup name = .absent ↔ table.candidates name = [] :=
  Resolution.ofCandidates_eq_absent_iff

theorem judge_eq_absent_iff :
    env.judge name spaces = .absent ↔ ∀ ns ∈ spaces, (env.table ns).lookup name = .absent := by
  induction spaces with
  | nil => simp [judge]
  | cons ns rest ih =>
    rw [judge, List.forall_mem_cons, ← ih, Resolution.orElse_eq_absent_iff]

theorem judge_append (env : Environment) (name : String) (before after : List Namespace) :
    env.judge name (before ++ after) = (env.judge name before).orElse (env.judge name after) := by
  induction before with
  | nil => rfl
  | cons ns rest ih => rw [List.cons_append, judge, judge, ih, Resolution.orElse_assoc]

/-- The first namespace that has the name decides. -/
theorem judge_eq_lookup {before after : List Namespace} {ns : Namespace}
    (earlier : ∀ space ∈ before, (env.table space).lookup name = .absent)
    (here : (env.table ns).lookup name ≠ .absent) :
    env.judge name (before ++ ns :: after) = (env.table ns).lookup name := by
  rw [judge_append, judge_eq_absent_iff.2 earlier, Resolution.absent_orElse, judge,
    Resolution.orElse_of_ne_absent here]

theorem exists_lookup_eq_judge (present : env.judge name spaces ≠ .absent) :
    ∃ ns ∈ spaces, (env.table ns).lookup name = env.judge name spaces := by
  induction spaces with
  | nil => exact absurd rfl present
  | cons ns rest ih =>
    rw [judge] at present ⊢
    by_cases here : (env.table ns).lookup name = .absent
    · rw [here] at present ⊢
      obtain ⟨space, mem, same⟩ := ih present
      exact ⟨space, List.mem_cons_of_mem _ mem, same⟩
    · exact ⟨ns, List.mem_cons_self, (Resolution.orElse_of_ne_absent here _).symm⟩

/-! ## Declarations in a namespace -/

namespace Built

variable {ns : Namespace} {simple : String}

theorem lookup_eq_absent_iff (built : Built decls env) :
    (env.table ns).lookup simple = .absent ↔ ∀ type, ¬Declares decls (ns.member simple) type := by
  rw [Environment.lookup_eq_absent_iff]
  simp only [← built.mem_types_candidates_iff]
  constructor
  · intro empty type
    simp [empty]
  · intro none_declared
    refine List.eq_nil_iff_forall_not_mem.2 fun c mem => none_declared c.type ?_
    exact List.mem_map_of_mem mem

/-- A name with one declared type is found with that type; a name with several is a tie of as many
candidates as it has types. -/
theorem lookup_of_declares (built : Built decls env) {type : TypeExpr}
    (declared : Declares decls (ns.member simple) type) :
    (∃ c, (env.table ns).lookup simple = .found c ∧ c.name = ns.member simple ∧
      ∀ type', Declares decls (ns.member simple) type' ↔ type' = c.type) ∨
    ∃ candidates, (env.table ns).lookup simple = .ambiguous ⟨simple, candidates⟩ ∧
      2 ≤ candidates.length ∧ (∀ c ∈ candidates, c.name = ns.member simple) ∧
      (candidates.map Constant.type).Nodup ∧
      ∀ type', Declares decls (ns.member simple) type' ↔ type' ∈ candidates.map Constant.type := by
  cases said : (env.table ns).lookup simple with
  | absent => exact absurd declared (built.lookup_eq_absent_iff.1 said type)
  | found c =>
    have only := Resolution.ofCandidates_eq_found_iff.1 said
    refine .inl ⟨c, rfl, built.name_of_mem_candidates (only ▸ List.mem_singleton_self c), ?_⟩
    intro type'
    rw [← built.mem_types_candidates_iff, only]
    simp
  | ambiguous conflict =>
    obtain ⟨rfl, several⟩ := Resolution.ofCandidates_eq_ambiguous_iff.1 said
    refine .inr ⟨_, rfl, several, fun c mem => built.name_of_mem_candidates mem,
      built.nodup_types_candidates ns simple, fun type' => built.mem_types_candidates_iff.symm⟩

/-- A name that some table has is in the pool. -/
theorem isSome_find?_pool_of_judge (built : Built decls env) {spaces : List Namespace}
    (present : env.judge simple spaces ≠ .absent) : (env.pool.find? simple).isSome := by
  obtain ⟨ns, -, same⟩ := exists_lookup_eq_judge present
  have listed : (env.table ns).candidates simple ≠ [] := by
    rwa [← same, ne_eq, Environment.lookup_eq_absent_iff] at present
  exact built.isSome_find?_pool listed

end Built

end Environment

namespace Hierarchy

variable {h : Hierarchy} {decls : List Declaration} {kin : Kinship}

/-! ## Namespaces of scopes -/

/-- The namespace of the class or module that a name stands for. -/
def opened? (h : Hierarchy) (name : QualifiedName) : Option Namespace :=
  (h.environment.normalize? name).map QualifiedName.toNamespace

/-- The namespace around a name, seen through the class or module that its parent stands for. -/
def enclosing? (h : Hierarchy) (name : QualifiedName) : Option Namespace :=
  match name.parent? with
  | none => some .root
  | some parent => h.opened? parent

/-- The namespaces that a scope opens to a name. -/
def places (h : Hierarchy) (name : String) : Scope → List Namespace
  | .root => [.root]
  | .inside target => (h.opened? target).toList
  | .around frame => if frame.last = name then (h.enclosing? frame).toList else []

theorem childTable?_eq_map (name : QualifiedName) :
    h.childTable? name = (h.opened? name).map h.environment.table := by
  simp [childTable?, opened?, Function.comp_def]

theorem enclosingTable?_eq_map (name : QualifiedName) :
    h.enclosingTable? name = (h.enclosing? name).map h.environment.table := by
  unfold enclosingTable? enclosing?
  cases name.parent? with
  | none => rfl
  | some parent => exact childTable?_eq_map parent

theorem judge_toList (env : Environment) (name : String) (ns? : Option Namespace) :
    env.judge name ns?.toList = ((ns?.map env.table).map (·.lookup name)).getD .absent := by
  cases ns? with
  | none => rfl
  | some ns =>
    simp only [Option.toList_some, Environment.judge, Option.map_some, Option.getD_some,
      Resolution.orElse_absent]

theorem verdict_eq_judge (name : String) (scope : Scope) :
    h.verdict name scope = h.environment.judge name (h.places name scope) := by
  cases scope with
  | root => exact (judge_toList h.environment name (some .root)).symm
  | inside target =>
    simp [verdict, Scope.shows, scopeTable?, places, judge_toList, childTable?_eq_map]
  | around frame =>
    by_cases own : frame.last = name
    · simp [verdict, Scope.shows, scopeTable?, places, judge_toList, enclosingTable?_eq_map, own]
    · simp [verdict, Scope.shows, places, Environment.judge, own]

/-- Scopes decide as their namespaces do. -/
theorem decision_eq_judge (name : String) (scopes : List Scope) :
    h.decision name scopes = h.environment.judge name (scopes.flatMap (h.places name)) := by
  induction scopes with
  | nil => rfl
  | cons scope outer ih =>
    rw [decision, List.flatMap_cons, Environment.judge_append, verdict_eq_judge, ih]

/-! ## The pool -/

/-- Asking first whether the name is declared anywhere changes no decision. -/
theorem pooled_decision_eq_judge (built : Environment.Built decls h.environment) (name : String)
    (scopes : List Scope) :
    (if h.isDeclaredSomewhere name then h.decision name scopes else .absent) =
      h.environment.judge name (scopes.flatMap (h.places name)) := by
  rw [← decision_eq_judge]
  by_cases pooled : h.isDeclaredSomewhere name
  · rw [if_pos pooled]
  · -- A name outside the pool is in no table, so the search would have found nothing.
    rw [if_neg pooled, decision_eq_judge]
    by_contra absent
    exact pooled (built.isSome_find?_pool_of_judge (Ne.symm absent))

theorem resolution_eq_judge (built : Environment.Built decls h.environment) (name : String)
    (context : Context) :
    h.resolution kin name context =
      h.environment.judge name ((h.scopesFrom kin context).flatMap (h.places name)) :=
  pooled_decision_eq_judge built name _

theorem childResolution_eq_judge (built : Environment.Built decls h.environment) (name : String)
    {qualifier : QualifiedName} {chain : List QualifiedName}
    (found : h.chainFrom? kin qualifier = some chain) :
    h.childResolution kin qualifier name =
      h.environment.judge name ((chain.map Scope.inside).flatMap (h.places name)) := by
  rw [childResolution, found]
  exact pooled_decision_eq_judge built name _

end Hierarchy

end NameResolution
