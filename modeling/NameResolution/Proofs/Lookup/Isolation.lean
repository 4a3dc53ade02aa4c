import NameResolution.Proofs.Environment.Agreement
import NameResolution.Proofs.Lookup.Fresh
import NameResolution.Proofs.Lookup.Places
import NameResolution.Proofs.Lookup.TypePath

/-!
# Declarations that a query does not see

An interface or a type alias changes nothing that can be asked about constants and ancestors. A
constant changes no ancestors, no type name and no other constant. All sorts of declarations share
one pool of names, which both lookups ask first, but a name that only the pool has is found nowhere.

## Main statements

* `Environment.sameModules_accept` — only classes, modules and aliases change what names stand for.
* `Environment.table_accept` — interfaces and type aliases are in no table.
* `Hierarchy.answer_eq_of_tables_eq` — only tables, classes, modules and aliases are seen by other
  queries than those for type names.
* `Hierarchy.ask_unchanged_by_other_sorts` — the answers before and after a declaration of another
  sort.
-/

namespace NameResolution

namespace Environment

variable {decls decls' : List Declaration} {env env' : Environment} {decl : Declaration}
  {name : String}

/-! ## One more declaration -/

/-- What names stand for is changed by classes, modules and aliases only. -/
theorem sameModules_accept (env : Environment) (other : ¬decl.namesModule) :
    env.SameModules (env.accept decl) where
  module?_eq name := by
    rw [module?, module?, modules_accept]
    cases decl with
    | ofModule | ofAlias => exact absurd rfl other
    | ofConstant | ofInterface | ofTypeAlias => rfl
  alias?_eq name := by
    rw [alias?, alias?, aliases_accept]
    cases decl with
    | ofModule | ofAlias => exact absurd rfl other
    | ofConstant | ofInterface | ofTypeAlias => rfl

/-- A declaration that gives its name no type is in no table. -/
theorem table_accept (env : Environment) (untyped : decl.givenType? = none) (ns : Namespace) :
    (env.accept decl).table ns = env.table ns := by
  have same := env.sameModules_accept (decl.not_namesModule_of_untyped untyped)
  have constants : (env.accept decl).constants = env.constants := by
    rw [constants_accept]
    cases decl with
    | ofConstant => cases untyped
    | ofModule | ofAlias | ofInterface | ofTypeAlias => rfl
  have named : (env.accept decl).constantsNamed = env.constantsNamed := by
    funext name
    rw [constantsNamed, constantsNamed, same.module?_eq, same.alias?_eq, constantDecls, constants]
    rfl
  rw [table, table, membersOf, members_accept, untyped, named]
  simp [membersOf]

/-- A declaration is in no table under another simple name than its own. -/
theorem Built.lookup_accept_of_ne (built : Built decls env)
    (built' : Built decls' (env.accept decl)) (foreign : name ≠ decl.name.last) (ns : Namespace) :
    ((env.accept decl).table ns).lookup name = (env.table ns).lookup name := by
  have elsewhere : decl.name ≠ ns.member name := fun same => foreign (same ▸ rfl)
  have stored := stored_accept env decl (ns.member name)
  rw [if_neg elsewhere] at stored
  rw [ConstantTable.lookup, ConstantTable.lookup, built'.candidates_table, built.candidates_table,
    constantsNamed_congr stored]

theorem judge_congr (same : ∀ ns, (env.table ns).lookup name = (env'.table ns).lookup name)
    (spaces : List Namespace) : env.judge name spaces = env'.judge name spaces := by
  induction spaces with
  | nil => rfl
  | cons ns rest ih => rw [judge, judge, same, ih]

end Environment

namespace Hierarchy

variable {decls decls' : List Declaration} {env env' : Environment} {kin : Kinship}

/-! ## Two environments with the same classes, modules and aliases -/

section SameModules

variable (same : env.SameModules env') (builtins : Builtins)

include same

theorem kinAfter_eq : kinAfter ⟨env, builtins⟩ = kinAfter ⟨env', builtins⟩ := by
  funext names name
  have ancestors : ancestors? ⟨env, builtins⟩ = ancestors? ⟨env', builtins⟩ :=
    funext (ancestors?_eq_of_sameModules same builtins)
  rw [kinAfter, kinAfter, lineagesAfter, lineagesAfter, ancestors, same.normalize?_eq]

/-- With nothing remembered, only what the ancestors are used for can make a difference. -/
theorem ask_empty_eq_of_answer_eq {query : Query}
    (answers : ∀ kin, answer ⟨env, builtins⟩ kin query = answer ⟨env', builtins⟩ kin query) :
    ((ask ⟨env, builtins⟩ query).run ∅).1 = ((ask ⟨env', builtins⟩ query).run ∅).1 := by
  rw [ask_empty_eq_answer, ask_empty_eq_answer, kinAfter_eq same, answers]

theorem opened?_eq (name : QualifiedName) :
    opened? ⟨env, builtins⟩ name = opened? ⟨env', builtins⟩ name := by
  rw [opened?, opened?, same.normalize?_eq]

theorem enclosing?_eq (name : QualifiedName) :
    enclosing? ⟨env, builtins⟩ name = enclosing? ⟨env', builtins⟩ name := by
  unfold enclosing?
  cases name.parent? with
  | none => rfl
  | some parent => exact opened?_eq same builtins parent

theorem places_eq (name : String) : places ⟨env, builtins⟩ name = places ⟨env', builtins⟩ name := by
  funext scope
  cases scope with
  | root => rfl
  | inside target => rw [places, places, opened?_eq same]
  | around frame => rw [places, places, enclosing?_eq same]

theorem chainFrom?_eq (kin : Kinship) (name : QualifiedName) :
    chainFrom? ⟨env, builtins⟩ kin name = chainFrom? ⟨env', builtins⟩ kin name := by
  rw [chainFrom?, chainFrom?, same.normalize?_eq]
  simp only [same.module?_eq]

section Lookups

variable (built : Environment.Built decls env) (built' : Environment.Built decls' env')
  {name : String} (lookups : ∀ ns, (env.table ns).lookup name = (env'.table ns).lookup name)

include built built' lookups

theorem resolution_eq_of_lookup_eq (context : Context) :
    resolution ⟨env, builtins⟩ kin name context = resolution ⟨env', builtins⟩ kin name context := by
  rw [resolution_eq_judge built, resolution_eq_judge built', Environment.judge_congr lookups,
    places_eq same]
  rfl

theorem childResolution_eq_of_lookup_eq (qualifier : QualifiedName) :
    childResolution ⟨env, builtins⟩ kin qualifier name =
      childResolution ⟨env', builtins⟩ kin qualifier name := by
  have chains := chainFrom?_eq same builtins kin qualifier
  cases found : chainFrom? ⟨env, builtins⟩ kin qualifier with
  | none => simp [childResolution, found, chains ▸ found]
  | some chain =>
    rw [childResolution_eq_judge built name found, childResolution_eq_judge built' name
      (chains ▸ found), Environment.judge_congr lookups, places_eq same]

end Lookups

section Tables

variable (tables : ∀ ns, env.table ns = env'.table ns)

include tables

theorem childTable?_eq (name : QualifiedName) :
    childTable? ⟨env, builtins⟩ name = childTable? ⟨env', builtins⟩ name := by
  rw [childTable?, childTable?, same.normalize?_eq]
  simp only [tables]

theorem enclosingTable?_eq (name : QualifiedName) :
    enclosingTable? ⟨env, builtins⟩ name = enclosingTable? ⟨env', builtins⟩ name := by
  unfold enclosingTable?
  cases name.parent? with
  | none => exact congrArg some (tables .root)
  | some parent => exact childTable?_eq same builtins tables parent

theorem scopeTable?_eq (scope : Scope) :
    scopeTable? ⟨env, builtins⟩ scope = scopeTable? ⟨env', builtins⟩ scope := by
  cases scope with
  | root => exact congrArg some (tables .root)
  | inside name => exact childTable?_eq same builtins tables name
  | around frame => exact enclosingTable?_eq same builtins tables frame

theorem panorama_eq (scopes : List Scope) :
    panorama ⟨env, builtins⟩ scopes = panorama ⟨env', builtins⟩ scopes := by
  induction scopes with
  | nil => rfl
  | cons scope outer ih => rw [panorama, panorama, scopeTable?_eq same builtins tables, ih]

/-- Queries other than those for type names see tables, classes, modules and aliases only. That a
name is new in the pool makes no difference. -/
theorem answer_eq_of_tables_eq (built : Environment.Built decls env)
    (built' : Environment.Built decls' env') {query : Query}
    (other : ∀ name context, query ≠ .typeName name context) :
    answer ⟨env, builtins⟩ kin query = answer ⟨env', builtins⟩ kin query := by
  have lookups (name : String) (ns : Namespace) :
      (env.table ns).lookup name = (env'.table ns).lookup name := by rw [tables]
  cases query with
  | rootTable => exact congrArg (Answer.table ∘ some) (tables .root)
  | childTable name => exact congrArg _ (childTable?_eq same builtins tables name)
  | enclosingTable name => exact congrArg _ (enclosingTable?_eq same builtins tables name)
  | constantAt name =>
    rw [answer, answer, verdict, verdict, scopeTable?_eq same builtins tables]
  | ancestors name => rfl
  | resolve name context =>
    exact congrArg _
      (resolution_eq_of_lookup_eq same builtins built built' (lookups name) context)
  | resolveChild qualifier name =>
    exact congrArg _
      (childResolution_eq_of_lookup_eq same builtins built built' (lookups name) qualifier)
  | constants context =>
    rw [answer, answer, panorama_eq same builtins tables]
    rfl
  | children qualifier =>
    rw [answer, answer, chainFrom?_eq same]
    simp only [panorama_eq same builtins tables]
  | typeName name context => exact absurd rfl (other name context)

end Tables

end SameModules

/-! ## Type names -/

/-- Type names see the names that can stand in a type, classes, modules and aliases only. -/
theorem typeMeaning_eq_of_types_eq (same : env.SameModules env') (builtins : Builtins)
    (built : Environment.Built decls env) (built' : Environment.Built decls' env')
    (types : ∀ name, env.isTypeName name = env'.isTypeName name) (name : QualifiedName)
    (context : Context) :
    typeMeaning ⟨env, builtins⟩ name context = typeMeaning ⟨env', builtins⟩ name context := by
  obtain ⟨head, rest, written⟩ : ∃ head rest, name.components = head :: rest :=
    List.exists_cons_of_ne_nil (by simp [QualifiedName.components])
  rw [typeMeaning, typeMeaning, built.typePath?_eq_bind written, built'.typePath?_eq_bind written,
    Environment.headType?_congr types]
  simp only [Environment.walk?_congr types same.normalize?_eq]

/-! ## One more declaration -/

/-- With nothing remembered before each query, one more interface or type alias changes no answer
but those to type names. One more constant changes no ancestors and no type name, and no resolution
of another simple name than its own. -/
theorem ask_unchanged_by_other_sorts {decls : List Declaration} {env env' : Environment}
    {decl : Declaration} (built : Environment.Built decls env) (added : env.add decl = .ok env')
    (builtins : Builtins) :
    let before (query : Query) := ((ask ⟨env, builtins⟩ query).run ∅).1
    let after (query : Query) := ((ask ⟨env', builtins⟩ query).run ∅).1
    (decl.givenType? = none → ∀ query, (∀ name context, query ≠ .typeName name context) →
      after query = before query) ∧
    ∀ constant, decl = .ofConstant constant →
      (∀ name context, name ≠ constant.name.last →
        after (.resolve name context) = before (.resolve name context)) ∧
      (∀ qualifier name, name ≠ constant.name.last →
        after (.resolveChild qualifier name) = before (.resolveChild qualifier name)) ∧
      (∀ name, after (.ancestors name) = before (.ancestors name)) ∧
      ∀ name context, after (.typeName name context) = before (.typeName name context) := by
  have built' := built.add added
  obtain rfl := Environment.eq_accept_of_add_eq_ok added
  intro before after
  refine ⟨fun untyped query other => ?_, ?_⟩
  · have same := env.sameModules_accept (decl.not_namesModule_of_untyped untyped)
    exact (ask_empty_eq_of_answer_eq same builtins fun kin => answer_eq_of_tables_eq same builtins
      (fun ns => (env.table_accept untyped ns).symm) built built' other).symm
  · rintro constant rfl
    have plain : ¬(Declaration.ofConstant constant).namesModule := nofun
    have same := env.sameModules_accept plain
    have lookups {name : String} (foreign : name ≠ constant.name.last) (ns : Namespace) :=
      (built.lookup_accept_of_ne built' foreign ns).symm
    have types (name : QualifiedName) :
        env.isTypeName name = (env.accept (.ofConstant constant)).isTypeName name := by
      rw [Bool.eq_iff_iff, Environment.isTypeName_accept]
      simp [Declaration.namesType]
    have unchanged {query : Query} (answers : ∀ kin, answer ⟨env, builtins⟩ kin query =
        answer ⟨env.accept (.ofConstant constant), builtins⟩ kin query) :
        after query = before query := (ask_empty_eq_of_answer_eq same builtins answers).symm
    refine ⟨fun name context foreign => unchanged fun kin => congrArg Answer.resolution ?_,
      fun qualifier name foreign => unchanged fun kin => congrArg Answer.resolution ?_,
      fun name => unchanged fun kin => rfl,
      fun name context => unchanged fun kin => congrArg Answer.typeName ?_⟩
    · exact resolution_eq_of_lookup_eq same builtins built built' (lookups foreign) context
    · exact childResolution_eq_of_lookup_eq same builtins built built' (lookups foreign) qualifier
    · exact typeMeaning_eq_of_types_eq same builtins built built' types name context

/-- A name that is in the pool for an interface's sake only means nothing inside a cycle, and a tie
inside it stays as it is when a constant of another name comes before it. -/
theorem ask_unchanged_by_other_sorts_entangled :
    let a := Namespace.root.member "A"
    let b := Namespace.root.member "B"
    let x := b.toNamespace.member "X"
    let interface : Declaration := .ofInterface ⟨b.toNamespace.member "Unseen", none⟩
    let constant : ConstantDecl := ⟨a.toNamespace.member "Y", .singleton b, none⟩
    let asked (env : Environment) (name : String) :=
      ((ask ⟨env, .standard⟩ (.resolve name ⟨[a]⟩)).run ∅).1
    (∃ env', Environment.entangled.add interface = .ok env' ∧
      Environment.entangled.pool.find? "Unseen" = none ∧ (env'.pool.find? "Unseen").isSome ∧
      asked env' "Unseen" = .resolution .absent) ∧
    ∃ env', Environment.entangled.add (.ofConstant constant) = .ok env' ∧
      asked env' "X" =
        .resolution (.ambiguous ⟨"X", [⟨x, .singleton a, none⟩, ⟨x, .singleton b, none⟩]⟩) := by
  intro a b x interface constant asked
  have missed : asked .entangled "Unseen" = .resolution .absent := by decide +kernel
  have tied : asked .entangled "X" =
      .resolution (.ambiguous ⟨"X", [⟨x, .singleton a, none⟩, ⟨x, .singleton b, none⟩]⟩) := by
    decide +kernel
  have added : Environment.entangled.add interface =
      .ok (Environment.entangled.accept interface) := rfl
  have added' : Environment.entangled.add (.ofConstant constant) =
      .ok (Environment.entangled.accept (.ofConstant constant)) := rfl
  refine ⟨⟨_, added, by decide +kernel, by decide +kernel, ?_⟩, ⟨_, added', ?_⟩⟩
  · obtain ⟨unseen, -⟩ :=
      ask_unchanged_by_other_sorts Environment.built_entangled added .standard
    exact (unseen rfl (.resolve "Unseen" ⟨[a]⟩) nofun).trans missed
  · obtain ⟨-, unseen⟩ :=
      ask_unchanged_by_other_sorts Environment.built_entangled added' .standard
    obtain ⟨resolved, -⟩ := unseen constant rfl
    exact (resolved "X" ⟨[a]⟩ (by decide)).trans tied

end Hierarchy

end NameResolution
