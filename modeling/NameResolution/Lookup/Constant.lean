import NameResolution.Lookup.Scope

/-!
# Looking constants up

A bare name is looked for in the enclosing frames, in the ancestors of the innermost frame, and at
the top: the root, the object class and the ancestors of the object class. A name qualified by a
class or module is looked for in the ancestors of that class or module alone. Either way the first
scope that has the name decides, and the decision may be a tie.

## Main definitions

* `Hierarchy.resolve` — the constant that a bare name means in a context.
* `Hierarchy.resolveChild` — the constant that a name qualified by a class or module means.
* `Hierarchy.constants` — all bare names that mean something in a context.
* `Hierarchy.children` — all names that mean something when qualified by a class or module.
-/

namespace NameResolution

namespace Hierarchy

/-- Whether a simple name is declared anywhere at all. -/
def isDeclaredSomewhere (h : Hierarchy) (name : String) : Bool :=
  (h.environment.pool.find? name).isSome

/-! ## Single names -/

/-- The constant that the bare name means in the context. -/
def resolve (h : Hierarchy) (name : String) (context : Context) : StateM Memory Resolution :=
  if h.isDeclaredSomewhere name then
    h.searchStages name [pure context.lexicalScopes, h.inheritedScopes context,
      pure h.outermostScopes, h.objectScopes]
  else
    pure .absent

/-- The constant that the name means when it is qualified by `qualifier`. -/
def resolveChild (h : Hierarchy) (qualifier : QualifiedName) (name : String) :
    StateM Memory Resolution := do
  if h.isDeclaredSomewhere name then
    match ← h.memberChain? qualifier with
    | none => return .absent
    | some chain => h.search name (chain.map .inside)
  else
    return .absent

/-! ## Listings -/

/-- All scopes of a bare name in the context, closest first. The object class's ancestors are
worked out before those of the innermost frame. -/
def allScopes (h : Hierarchy) (context : Context) : StateM Memory (List Scope) := do
  let object ← h.objectScopes
  let inherited ← h.inheritedScopes context
  return context.lexicalScopes ++ inherited ++ h.outermostScopes ++ object

/-- All bare names that mean something in the context, each with its constant, or with the first
candidate in case of a tie. -/
def constants (h : Hierarchy) (context : Context) : StateM Memory Listing := do
  if let some known := (← get).contexts.find? context then
    return known
  let listing ← h.gather (← h.allScopes context)
  modify fun memory => { memory with contexts := memory.contexts.insertIfNew context listing }
  return listing

/-- All names that mean something when they are qualified by `qualifier`; none when it stands for
no class or module. -/
def children (h : Hierarchy) (qualifier : QualifiedName) : StateM Memory (Option Listing) := do
  match h.environment.normalize? qualifier with
  | none => return none
  | some target =>
    if let some known := (← get).children.find? target then
      return some known
    match ← h.memberChain? target with
    | none => return none
    | some chain =>
      let listing ← h.gather (chain.map .inside)
      modify fun memory => { memory with children := memory.children.insertIfNew target listing }
      return some listing

end Hierarchy

end NameResolution
