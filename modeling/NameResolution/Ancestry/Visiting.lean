import NameResolution.Ancestry.Lineage

/-!
# Working out lineages in place

A lineage can be worked out by calls that share one state: the lineages known so far, and the
classes and modules that are being worked out. A call enters its class or module there and takes it
out again before it returns, and a call for one that is entered already is cut short. How deep calls
are nested is limited, and a class or module is noted when its mixins are gone through.

## Main definitions

* `Visiting` — the shared state.
* `Hierarchy.visit` — the lineage of a declared class or module, with calls nested to some depth.
* `Hierarchy.visitAncestors?` — the lineage of whatever class or module a name stands for.
-/

namespace NameResolution

/-- What calls that work out lineages share. -/
structure Visiting where
  known : Lineages
  /-- The classes and modules that are being worked out, the innermost one first. -/
  pending : List QualifiedName
  /-- The classes and modules whose mixins were gone through, in order. -/
  expanded : List QualifiedName

namespace Visiting

/-- The state of a builder that knows some lineages and has nothing to do. -/
def idle (known : Lineages) : Visiting := ⟨known, [], []⟩

/-- A call for `name` begins to work out its lineage. -/
def enter (state : Visiting) (name : QualifiedName) : Visiting :=
  { state with pending := name :: state.pending }

/-- The call for `name` turns to the mixins. -/
def expand (state : Visiting) (name : QualifiedName) : Visiting :=
  { state with expanded := state.expanded ++ [name] }

/-- The call for `name` is done with its lineage. -/
def leave (state : Visiting) (name : QualifiedName) (line : List QualifiedName) : Visiting :=
  { state with
    known := state.known.insertIfNew name line
    pending := state.pending.erase name }

end Visiting

namespace Hierarchy

/-- The link to the superclass of an entry, if that stands for a class or module. -/
def superclassLinks (h : Hierarchy) (entry : ModuleEntry) : List Link :=
  ((h.superclass? entry).bind (h.link? .superclass)).toList

/-- The links to the mixins of an entry, in order. -/
def mixinLinks (h : Hierarchy) (entry : ModuleEntry) : List Link :=
  entry.mixins.filterMap fun mixin => h.link? (.mixin mixin.form) mixin.moduleName

/-- The lineage of `name`, worked out with calls nested at most `depth` deep, this one included.
There is no result when it takes deeper ones. -/
def visit (h : Hierarchy) :
    (depth : Nat) → QualifiedName → StateT Visiting Option (List QualifiedName)
  | 0, _ => failure
  | depth + 1, name => do
    if let some line := (← get).known.find? name then
      return line
    match h.environment.module? name with
    | none => return []
    | some entry =>
      if name ∈ (← get).pending then
        return []
      modify (·.enter name)
      let inherited ← (h.superclassLinks entry).mapM fun link => do
        return (link.role, ← h.visit depth link.target)
      modify (·.expand name)
      let mixed ← (h.mixinLinks entry).mapM fun link => do
        return (link.role, ← h.visit depth link.target)
      let line := assemble name (inherited ++ mixed)
      modify (·.leave name line)
      return line

/-- The lineage of the class or module that `name` stands for, worked out with calls nested at most
`depth` deep. Nothing is being worked out when such a request begins. -/
def visitAncestors? (h : Hierarchy) (depth : Nat) (name : QualifiedName) :
    StateT Visiting Option (Option (List QualifiedName)) := do
  match h.environment.normalize? name with
  | none => return none
  | some target =>
    modify fun state => { state with pending := [] }
    return some (← h.visit depth target)

end Hierarchy

end NameResolution
