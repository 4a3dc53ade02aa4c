import NameResolution.Environment.Basic

/-!
# Following aliases

A name that is declared as an alias stands for the class or module at the end of its chain of
aliases. A name that is itself a class or module is the end of its chain, even when an alias of
the same name exists.

## Main definitions

* `Environment.follow` — the end of a chain that uses each of the given aliases at most once.
* `Environment.normalize?` — the class or module that a name stands for.
-/

namespace NameResolution

namespace Environment

/-- The class or module at the end of the chain from `name`, using each alias in `unused` at most
once. A chain that comes back to an alias never ends. -/
def follow (env : Environment) (unused : List QualifiedName) (name : QualifiedName) :
    Option QualifiedName :=
  if env.modules.contains name then some name
  else
    match env.alias? name with
    | none => none
    | some decl =>
      if _h : name ∈ unused then env.follow (unused.erase name) decl.target else none
termination_by unused.length
decreasing_by
  have := List.length_pos_of_mem _h
  rw [List.length_erase_of_mem _h]
  omega

/-- The class or module that `name` stands for. None when the name is no class, module or alias,
when its chain of aliases ends in an undeclared name, and when the chain loops. -/
def normalize? (env : Environment) (name : QualifiedName) : Option QualifiedName :=
  env.follow env.aliases.keys name

end Environment

end NameResolution
