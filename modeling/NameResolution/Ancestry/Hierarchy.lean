import NameResolution.Builtins
import NameResolution.Environment.Alias

/-!
# Class hierarchies

An environment together with the names of its implicit ancestors. It decides what each class and
module inherits from and mixes in.

## Main definitions

* `Hierarchy` — an environment and its implicit ancestors.
* `Role`, `Link` — a class or module inherited or mixed in, and how.
* `Hierarchy.heritage` — the links of a class or module, in the order in which they are placed.
-/

namespace NameResolution

/-- An environment read with a choice of implicit ancestors. -/
structure Hierarchy where
  environment : Environment
  builtins : Builtins

/-- How a class or module takes part in another one's ancestry. -/
inductive Role where
  | superclass
  | mixin (form : MixinForm)
deriving DecidableEq, Repr

/-- A declared class or module that another one inherits or mixes in. -/
structure Link where
  role : Role
  target : QualifiedName
deriving DecidableEq, Repr

namespace Builtins

/-- The superclass of a class that states none: the basic object class for the object class, and
the object class for all others but the basic object class, which has no superclass. -/
def implicitSuperclass? (builtins : Builtins) (name : QualifiedName) : Option QualifiedName :=
  if name = builtins.basicObject then none
  else if name = builtins.object then some builtins.basicObject
  else some builtins.object

end Builtins

namespace Hierarchy

/-- The superclass of an entry, as it is declared or implied. A module has none. -/
def superclass? (h : Hierarchy) (entry : ModuleEntry) : Option QualifiedName :=
  if entry.isClass then entry.superclass? <|> h.builtins.implicitSuperclass? entry.name else none

/-- The link to the class or module that `name` stands for, if it stands for one. -/
def link? (h : Hierarchy) (role : Role) (name : QualifiedName) : Option Link :=
  (h.environment.normalize? name).map (Link.mk role)

/-- The links of an entry: the superclass, then the mixins in order. Names that stand for no class
or module are left out. -/
def heritage (h : Hierarchy) (entry : ModuleEntry) : List Link :=
  ((h.superclass? entry).bind (h.link? .superclass)).toList ++
    entry.mixins.filterMap fun mixin => h.link? (.mixin mixin.form) mixin.moduleName

end Hierarchy

end NameResolution
