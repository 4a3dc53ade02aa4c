import NameResolution.Ancestry.Assembly

/-!
# Lineages

The lineage of a class or module is the line of its ancestors in lookup order, itself among them.
Lineages are computed from the lineages of superclass and mixins and remembered. Where the
ancestry is cyclic, a class or module that is still being computed contributes nothing, and what
was computed that way is remembered as it is.

## Main definitions

* `Lineages` — the lineages known so far.
* `Hierarchy.lineage` — the lineage of a declared class or module.
* `Hierarchy.ancestors?` — the lineage of whatever class or module a name stands for.
-/

namespace NameResolution

/-- The lineages known so far, by the name of their owner. -/
abbrev Lineages := OrderedMap QualifiedName (List QualifiedName)

namespace Hierarchy

/-- The lineage of `name`, where only the classes and modules in `unvisited` may be entered. It is
empty for an undeclared name and for one that is not to be entered. -/
def lineage (h : Hierarchy) (unvisited : List QualifiedName) (name : QualifiedName) :
    StateM Lineages (List QualifiedName) := do
  if let some known := (← get).find? name then
    return known
  match h.environment.module? name with
  | none => return []
  | some entry =>
    if _h : name ∈ unvisited then
      let parts ← (h.heritage entry).mapM fun link => do
        return (link.role, ← h.lineage (unvisited.erase name) link.target)
      let line := assemble name parts
      modify (·.insertIfNew name line)
      return line
    else
      return []
termination_by unvisited.length
decreasing_by
  have := List.length_pos_of_mem _h
  rw [List.length_erase_of_mem _h]
  omega

/-- The lineage of the class or module that `name` stands for; none when it stands for none. -/
def ancestors? (h : Hierarchy) (name : QualifiedName) :
    StateM Lineages (Option (List QualifiedName)) := do
  match h.environment.normalize? name with
  | none => return none
  | some target => return some (← h.lineage h.environment.modules.keys target)

end Hierarchy

end NameResolution
