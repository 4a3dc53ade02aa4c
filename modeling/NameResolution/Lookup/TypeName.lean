import NameResolution.Lookup.Memory

/-!
# Looking type names up

A relative type name is looked for in the enclosing frames and at the root, by its first component
only. The other components are then walked strictly below what the first one means, looking
through aliases, and the answer is spelled as the name was written.

## Main definitions

* `TypePath` — a spelled name and the declaration it has led to.
* `Environment.descend?` — the declaration of one more component.
* `Environment.typePath?` — the whole walk.
* `Hierarchy.resolveTypeName` — the absolute name, through the memory.
-/

namespace NameResolution

/-- How far a type name has been followed. -/
structure TypePath where
  /-- The name as it is spelled, under the frame where its first component was found. -/
  spelled : QualifiedName
  /-- The declaration that it has led to. -/
  declared : QualifiedName
deriving DecidableEq, Repr

/-- The namespaces in which the first component of a type name is looked for, closest first. -/
def Context.typeScopes (context : Context) : List Namespace :=
  context.frames.map QualifiedName.toNamespace ++ [.root]

namespace Environment

/-- The declaration of a first component in the closest scope that has it. -/
def headType? (env : Environment) (context : Context) (head : String) : Option QualifiedName :=
  (context.typeScopes.map (·.member head)).find? env.isTypeName

/-- The declaration of `component` below `current`, or else below what `current` is an alias
of. -/
def descend? (env : Environment) (current : QualifiedName) (component : String) :
    Option QualifiedName :=
  let child := current.toNamespace.member component
  if env.isTypeName child then some child
  else
    match env.normalize? current with
    | none => none
    | some target =>
      let child := target.toNamespace.member component
      if target ≠ current ∧ env.isTypeName child then some child else none

/-- Follow the remaining components of a name. -/
def walk? (env : Environment) (path : TypePath) : List String → Option TypePath
  | [] => some path
  | component :: rest =>
    match env.descend? path.declared component with
    | none => none
    | some declared => env.walk? ⟨path.spelled.toNamespace.member component, declared⟩ rest

/-- Follow a relative type name from the context. -/
def typePath? (env : Environment) (name : QualifiedName) (context : Context) : Option TypePath :=
  let (head, rest) := name.splitFirst
  if (env.pool.find? head).isSome then
    match env.headType? context head with
    | none => none
    | some found => env.walk? ⟨found, found⟩ (rest.elim [] QualifiedName.components)
  else none

end Environment

namespace Hierarchy

/-- The absolute name that a type name means in the context. An absolute name means itself, whether
it is declared or not. -/
def resolveTypeName (h : Hierarchy) (name : QualifiedName) (context : Context) :
    StateM Memory (Option QualifiedName) := do
  if name.isAbsolute then
    return some name
  if let some known := (← get).typeNames.find? (name, context) then
    return known
  let meaning := (h.environment.typePath? name context).map TypePath.spelled
  modify fun memory =>
    { memory with typeNames := memory.typeNames.insertIfNew (name, context) meaning }
  return meaning

end Hierarchy

end NameResolution
