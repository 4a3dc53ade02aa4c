import NameResolution.Proofs.Environment.Declared
import NameResolution.Proofs.Lookup.Transcript

/-!
# Following type names

The meaning of a relative type name, told from the declarations. The closest frame that has the
first component is the only one that counts. From there each further component is declared below
what the components before it lead to, or below what that stands for, and the answer is the name as
it is written, below the chosen frame.

## Main definitions

* `QualifiedName.below` — a name with further components.
* `StepsTo`, `WalksTo` — what one more component, and a list of them, leads to.

## Main statements

* `Environment.Built.walk?_eq_some_iff` — the walk follows the declarations.
* `Environment.Built.typePath?_eq_bind` — the pool has no say in what a name means.
* `Environment.Built.typePath?_eq_walk?` — the closest frame with the first component decides.
* `Hierarchy.typeName_follows_declarations` — the meaning of a relative type name in any run.
-/

namespace NameResolution

/-! ## Written names -/

namespace QualifiedName

/-- The name with further components behind it. -/
def below (name : QualifiedName) (components : List String) : QualifiedName :=
  components.foldl (fun name component => name.toNamespace.member component) name

@[simp] theorem below_nil (name : QualifiedName) : name.below [] = name := rfl

@[simp] theorem below_cons (name : QualifiedName) (component : String) (rest : List String) :
    name.below (component :: rest) = (name.toNamespace.member component).below rest := rfl

theorem components_below (name : QualifiedName) (components : List String) :
    (name.below components).components = name.components ++ components := by
  induction components generalizing name with
  | nil => simp
  | cons component rest ih =>
    rw [below_cons, ih, List.append_cons]
    rfl

theorem isAbsolute_below (name : QualifiedName) (components : List String) :
    (name.below components).isAbsolute = name.isAbsolute := by
  induction components generalizing name with
  | nil => rfl
  | cons component rest ih => exact ih _

theorem eq_of_components_eq {name other : QualifiedName}
    (flag : name.isAbsolute = other.isAbsolute) (same : name.components = other.components) :
    name = other := by
  obtain ⟨⟨flag, path⟩, last⟩ := name
  obtain ⟨⟨flag', path'⟩, last'⟩ := other
  obtain ⟨rfl, rfl⟩ : path = path' ∧ last = last' := by simpa [components] using same
  cases flag
  rfl

/-- A name read inside a namespace goes down one component after the other. -/
theorem qualify_eq_below {name : QualifiedName} {head : String} {rest : List String}
    (relative : ¬name.isAbsolute) (written : name.components = head :: rest) (ns : Namespace) :
    ns.qualify name = (ns.member head).below rest := by
  have outside : ¬name.container.isAbsolute := relative
  apply eq_of_components_eq
  · rw [isAbsolute_below, Namespace.qualify, if_neg outside]
    rfl
  · rw [components_below, Namespace.qualify, if_neg outside]
    simpa [components, Namespace.member] using written

theorem splitFirst_of_components {name : QualifiedName} {head : String} {rest : List String}
    (written : name.components = head :: rest) :
    name.splitFirst.1 = head ∧ name.splitFirst.2.elim [] components = rest := by
  obtain ⟨⟨flag, path⟩, last⟩ := name
  cases path with
  | nil => simpa [components, splitFirst] using written
  | cons first path => simpa [components, splitFirst] using written

end QualifiedName

/-! ## Declarations along a name -/

/-- One more component leads from the declaration `current` to the one below it or, failing that, to
the one below the class or module that it stands for. -/
inductive StepsTo (decls : List Declaration) (current : QualifiedName) (component : String) :
    QualifiedName → Prop
  | below (named : NamesType decls (current.toNamespace.member component)) :
      StepsTo decls current component (current.toNamespace.member component)
  | through {target : QualifiedName}
      (unnamed : ¬NamesType decls (current.toNamespace.member component))
      (leads : StandsFor decls current target)
      (named : NamesType decls (target.toNamespace.member component)) :
      StepsTo decls current component (target.toNamespace.member component)

/-- The components lead from the declaration `start`, one after the other, to the declaration
`last`. -/
inductive WalksTo (decls : List Declaration) :
    QualifiedName → List String → QualifiedName → Prop
  | here {start : QualifiedName} : WalksTo decls start [] start
  | step {start next last : QualifiedName} {component : String} {rest : List String}
      (first : StepsTo decls start component next) (further : WalksTo decls next rest last) :
      WalksTo decls start (component :: rest) last

/-- The components up to any point lead somewhere if all of them do. -/
theorem WalksTo.exists_of_append {decls : List Declaration} {start last : QualifiedName}
    {first rest : List String} (walks : WalksTo decls start (first ++ rest) last) :
    ∃ middle, WalksTo decls start first middle := by
  induction first generalizing start with
  | nil => exact ⟨start, .here⟩
  | cons component first ih =>
    cases walks with
    | step one further =>
      obtain ⟨middle, walks⟩ := ih further
      exact ⟨middle, .step one walks⟩

namespace Environment.Built

variable {decls : List Declaration} {env : Environment}

theorem descend?_eq_some_iff (built : Built decls env) {current next : QualifiedName}
    {component : String} :
    env.descend? current component = some next ↔ StepsTo decls current component next := by
  simp only [descend?]
  constructor
  · intro found
    split at found
    · next named =>
      obtain rfl := Option.some.inj found
      exact .below (built.isTypeName_iff.1 named)
    · next unnamed =>
      split at found
      · cases found
      · next target leads =>
        split at found
        · next named =>
          obtain rfl := Option.some.inj found
          exact .through (mt built.isTypeName_iff.2 unnamed) (built.normalize?_eq_some_iff.1 leads)
            (built.isTypeName_iff.1 named.2)
        · cases found
  · intro steps
    cases steps with
    | below named => exact if_pos (built.isTypeName_iff.2 named)
    | @through target unnamed leads named =>
      have elsewhere : target ≠ current := by
        rintro rfl
        exact unnamed named
      simp [mt built.isTypeName_iff.1 unnamed, built.normalize?_eq_some_iff.2 leads, elsewhere,
        built.isTypeName_iff.2 named]

/-- The walk follows the declarations and spells the components as they are written. -/
theorem walk?_eq_some_iff (built : Built decls env) {path path' : TypePath}
    {components : List String} :
    env.walk? path components = some path' ↔
      path'.spelled = path.spelled.below components ∧
        WalksTo decls path.declared components path'.declared := by
  induction components generalizing path with
  | nil =>
    constructor
    · rintro ⟨⟩
      exact ⟨rfl, .here⟩
    · obtain ⟨spelled, declared⟩ := path
      obtain ⟨spelled', declared'⟩ := path'
      rintro ⟨⟨⟩, ⟨⟩⟩
      rfl
  | cons component rest ih =>
    rw [walk?, QualifiedName.below_cons]
    constructor
    · intro found
      cases first : env.descend? path.declared component with
      | none =>
        rw [first] at found
        cases found
      | some next =>
        rw [first] at found
        obtain ⟨spelled, further⟩ := ih.1 found
        exact ⟨spelled, .step (built.descend?_eq_some_iff.1 first) further⟩
    · rintro ⟨spelled, _ | ⟨first, further⟩⟩
      rw [built.descend?_eq_some_iff.2 first]
      exact ih.2 ⟨spelled, further⟩

/-! ## The first component -/

section Head

variable {context : Context} {head : String} {rest : List String} {name : QualifiedName}

theorem headType?_eq_none (built : Built decls env)
    (nowhere : ∀ ns ∈ context.typeScopes, ¬NamesType decls (ns.member head)) :
    env.headType? context head = none := by
  rw [headType?, List.find?_eq_none]
  intro name mem
  obtain ⟨ns, among, rfl⟩ := List.mem_map.1 mem
  exact mt built.isTypeName_iff.1 (nowhere ns among)

/-- The closest scope that has the first component is chosen. -/
theorem headType?_eq_member (built : Built decls env) {before after : List Namespace}
    {ns : Namespace} (scopes : context.typeScopes = before ++ ns :: after)
    (closer : ∀ scope ∈ before, ¬NamesType decls (scope.member head))
    (named : NamesType decls (ns.member head)) :
    env.headType? context head = some (ns.member head) := by
  have skipped : (before.map (·.member head)).find? env.isTypeName = none := by
    rw [List.find?_eq_none]
    intro name mem
    obtain ⟨scope, among, rfl⟩ := List.mem_map.1 mem
    exact mt built.isTypeName_iff.1 (closer scope among)
  rw [headType?, scopes, List.map_append, List.find?_append, skipped, Option.none_or, List.map_cons,
    List.find?_cons_of_pos (built.isTypeName_iff.2 named)]

/-- A first component that some scope has is in the pool, so the pool has no say. -/
theorem typePath?_eq_bind (built : Built decls env) (written : name.components = head :: rest) :
    env.typePath? name context =
      (env.headType? context head).bind fun found => env.walk? ⟨found, found⟩ rest := by
  obtain ⟨first, further⟩ := QualifiedName.splitFirst_of_components written
  simp only [typePath?, first, further]
  cases closest : env.headType? context head with
  | none => simp
  | some found =>
    obtain ⟨ns, -, rfl⟩ := List.mem_map.1 (List.mem_of_find?_eq_some closest)
    obtain ⟨decl, mem, same, -⟩ := built.isTypeName_iff.1 (List.find?_some closest)
    have pooled := built.isSome_find?_pool_iff.2 ⟨decl, mem, congrArg QualifiedName.last same⟩
    exact if_pos pooled

theorem typePath?_eq_none (built : Built decls env) (written : name.components = head :: rest)
    (nowhere : ∀ ns ∈ context.typeScopes, ¬NamesType decls (ns.member head)) :
    env.typePath? name context = none := by
  rw [built.typePath?_eq_bind written, built.headType?_eq_none nowhere, Option.bind_none]

/-- The scopes behind the chosen one have no say in what a name means. -/
theorem typePath?_eq_walk? (built : Built decls env) (written : name.components = head :: rest)
    {before after : List Namespace} {ns : Namespace}
    (scopes : context.typeScopes = before ++ ns :: after)
    (closer : ∀ scope ∈ before, ¬NamesType decls (scope.member head))
    (named : NamesType decls (ns.member head)) :
    env.typePath? name context = env.walk? ⟨ns.member head, ns.member head⟩ rest := by
  rw [built.typePath?_eq_bind written, built.headType?_eq_member scopes closer named,
    Option.bind_some]

/-- What a relative name leads to below the chosen scope. -/
theorem typePath?_eq_some_iff (built : Built decls env) (relative : ¬name.isAbsolute)
    (written : name.components = head :: rest) {before after : List Namespace} {ns : Namespace}
    (scopes : context.typeScopes = before ++ ns :: after)
    (closer : ∀ scope ∈ before, ¬NamesType decls (scope.member head))
    (named : NamesType decls (ns.member head)) {path : TypePath} :
    env.typePath? name context = some path ↔
      path.spelled = ns.qualify name ∧ WalksTo decls (ns.member head) rest path.declared := by
  rw [built.typePath?_eq_walk? written scopes closer named, built.walk?_eq_some_iff,
    QualifiedName.qualify_eq_below relative written]

/-- When a relative name means something, so does a shorter one that it starts with, below the same
scope. -/
theorem exists_typePath?_of_prefix (built : Built decls env) {path : TypePath}
    {shorter : QualifiedName} (relative : ¬name.isAbsolute)
    (written : name.components = head :: rest)
    {before after : List Namespace} {ns : Namespace}
    (scopes : context.typeScopes = before ++ ns :: after)
    (closer : ∀ scope ∈ before, ¬NamesType decls (scope.member head))
    (named : NamesType decls (ns.member head)) (followed : env.typePath? name context = some path)
    (relative' : ¬shorter.isAbsolute) (starts : shorter.components <+: name.components) :
    ∃ last, env.typePath? shorter context = some ⟨ns.qualify shorter, last⟩ := by
  obtain ⟨-, walks⟩ :=
    (built.typePath?_eq_some_iff relative written scopes closer named).1 followed
  -- The shorter name has the same first component, so the same scope is chosen for it.
  obtain ⟨first, written'⟩ : ∃ first, shorter.components = head :: first := by
    rw [written, List.prefix_cons_iff] at starts
    rcases starts with empty | ⟨first, written', -⟩
    · simp [QualifiedName.components] at empty
    · exact ⟨first, written'⟩
  rw [written, written', List.cons_prefix_cons] at starts
  obtain ⟨-, further, rfl⟩ := starts
  obtain ⟨middle, walks'⟩ := walks.exists_of_append
  exact ⟨middle,
    (built.typePath?_eq_some_iff relative' written' scopes closer named).2 ⟨rfl, walks'⟩⟩

end Head

end Environment.Built

namespace Hierarchy

/-- At any point of a run, a relative type name is answered with what its path spells. -/
theorem ask_typeName_memoryAfter (h : Hierarchy) (queries : List Query) {name : QualifiedName}
    (relative : ¬name.isAbsolute) (context : Context) :
    ((h.ask (.typeName name context)).run (h.memoryAfter queries)).1 =
      .typeName ((h.environment.typePath? name context).map TypePath.spelled) := by
  refine ask_memoryAfter_eq (fun kin => ?_) queries
  rw [answer, typeMeaning, if_neg relative]

/-- A relative type name is looked for in the closest frame, or else the root, that has its first
component, and means nothing where none has it. There it means itself as it is written, if each of
its other components is declared below what the ones before it lead to, or below what that stands
for, and it means nothing if not. When it means something, so does every shorter name that it starts
with, in the same place. None of this depends on what was asked before. -/
theorem typeName_follows_declarations {decls : List Declaration} {env : Environment}
    (built : Environment.Built decls env) (builtins : Builtins) (queries : List Query)
    (context : Context) (name : QualifiedName) {head : String} {rest : List String}
    (relative : ¬name.isAbsolute) (written : name.components = head :: rest) :
    ∃ meaning?, ((ask ⟨env, builtins⟩ (.typeName name context)).run
        (memoryAfter ⟨env, builtins⟩ queries)).1 = .typeName meaning? ∧
      ((∀ ns ∈ context.typeScopes, ¬NamesType decls (ns.member head)) → meaning? = none) ∧
      ∀ before ns after, context.typeScopes = before ++ ns :: after →
        (∀ closer ∈ before, ¬NamesType decls (closer.member head)) →
        NamesType decls (ns.member head) →
          (∀ meaning, meaning? = some meaning ↔
            meaning = ns.qualify name ∧ ∃ last, WalksTo decls (ns.member head) rest last) ∧
          ∀ shorter later, ¬shorter.isAbsolute → shorter.components <+: name.components →
            meaning?.isSome →
              ((ask ⟨env, builtins⟩ (.typeName shorter context)).run
                (memoryAfter ⟨env, builtins⟩ later)).1 = .typeName (some (ns.qualify shorter)) := by
  refine ⟨_, ask_typeName_memoryAfter ⟨env, builtins⟩ queries relative context, fun nowhere => ?_,
    fun before ns after scopes closer named => ⟨fun meaning => ?_, ?_⟩⟩
  · rw [built.typePath?_eq_none written nowhere, Option.map_none]
  · rw [Option.map_eq_some_iff]
    constructor
    · rintro ⟨path, followed, rfl⟩
      obtain ⟨spelled, walks⟩ :=
        (built.typePath?_eq_some_iff relative written scopes closer named).1 followed
      exact ⟨spelled, _, walks⟩
    · rintro ⟨rfl, last, walks⟩
      exact ⟨⟨_, last⟩,
        (built.typePath?_eq_some_iff relative written scopes closer named).2 ⟨rfl, walks⟩, rfl⟩
  · intro shorter later relative' starts found
    obtain ⟨path, followed⟩ := Option.isSome_iff_exists.1 (Option.isSome_map.symm.trans found)
    obtain ⟨last, followed'⟩ := built.exists_typePath?_of_prefix relative written scopes closer
      named followed relative' starts
    rw [ask_typeName_memoryAfter ⟨env, builtins⟩ later relative' context, followed',
      Option.map_some]

/-- A module with a part of its own, each under a second name as well, and a class that includes the
part by way of the second name of the module. -/
def abbreviatedDecls : List Declaration :=
  let m := Namespace.root.member "M"
  let part := m.toNamespace.member "Part"
  let short := Namespace.root.member "Short"
  [.ofModule ⟨m, .ofModule [], [], none⟩,
    .ofModule ⟨part, .ofModule [], [], none⟩,
    .ofModule ⟨part.toNamespace.member "Core", .ofClass none, [], none⟩,
    .ofAlias ⟨short, m, .moduleKind, none⟩,
    .ofAlias ⟨m.toNamespace.member "Own", part, .moduleKind, none⟩,
    .ofModule ⟨Namespace.root.member "User", .ofClass none,
      [⟨.included, short.toNamespace.member "Part"⟩], none⟩]

/-- The environment of `abbreviatedDecls`. -/
def abbreviated : Environment := (Environment.ofDeclarations abbreviatedDecls).toOption.getD ∅

theorem built_abbreviated : Environment.Built abbreviatedDecls abbreviated :=
  .of_ofDeclarations rfl

/-- Two aliases on the way, and no trace of them in the answer. -/
theorem typeName_follows_declarations_abbreviated :
    let m := Namespace.root.member "M"
    let short := Namespace.root.member "Short"
    let core := (m.toNamespace.member "Part").toNamespace.member "Core"
    let h : Hierarchy := ⟨abbreviated, .standard⟩
    WalksTo abbreviatedDecls short ["Own", "Core"] core ∧
      ((h.ask (.typeName ⟨⟨false, ["Short", "Own"]⟩, "Core"⟩ ⟨[m]⟩)).run ∅).1 =
        .typeName (some ⟨⟨true, ["Short", "Own"]⟩, "Core"⟩) ∧
      ((h.ask (.typeName ⟨⟨false, ["Short"]⟩, "Own"⟩ ⟨[m]⟩)).run ∅).1 =
        .typeName (some ⟨⟨true, ["Short"]⟩, "Own"⟩) := by
  intro m short core h
  have walks : WalksTo abbreviatedDecls short ["Own", "Core"] core :=
    .step (.through (by decide) (.through (by decide) rfl (.itself (by decide))) (by decide)) <|
      .step (.through (by decide) (.through (by decide) rfl (.itself (by decide))) (by decide))
        .here
  obtain ⟨meaning?, answered, -, decided⟩ := typeName_follows_declarations built_abbreviated
    .standard [] ⟨[m]⟩ ⟨⟨false, ["Short", "Own"]⟩, "Core"⟩ (by decide) rfl
  obtain ⟨means, shorter⟩ := decided [m.toNamespace] .root [] rfl
    (List.forall_mem_singleton.2 (by decide)) (by decide)
  have found := (means _).2 ⟨rfl, core, walks⟩
  refine ⟨walks, answered.trans (congrArg _ found), ?_⟩
  exact shorter ⟨⟨false, ["Short"]⟩, "Own"⟩ [] (by decide) ⟨["Core"], rfl⟩ (by rw [found]; rfl)

end Hierarchy

end NameResolution
