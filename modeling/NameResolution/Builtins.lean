import NameResolution.Name.QualifiedName

/-!
# Implicit ancestors

The three names at the top of every class hierarchy.

## Main definitions

* `Builtins` — the names of the object class, the kernel module and the basic object class.
* `Builtins.implicitAncestors` — the three in lookup order.
-/

namespace NameResolution

/-- The names every class inherits from without saying so. The object class is also the superclass
of a class that states none. -/
structure Builtins where
  object : QualifiedName := Namespace.root.member "Object"
  kernel : QualifiedName := Namespace.root.member "Kernel"
  basicObject : QualifiedName := Namespace.root.member "BasicObject"
deriving DecidableEq, Repr

namespace Builtins

/-- The usual names, directly below the root. -/
def standard : Builtins := {}

/-- The three names, closest first. -/
def implicitAncestors (builtins : Builtins) : List QualifiedName :=
  [builtins.object, builtins.kernel, builtins.basicObject]

/-- Whether a name is one of the three. -/
def isBuiltin (builtins : Builtins) (name : QualifiedName) : Bool :=
  builtins.implicitAncestors.contains name

/-- The three names, labelled for a log. -/
def debugText (builtins : Builtins) : String :=
  s!"BuiltinNames \x7b object: {builtins.object.debugText}, kernel: {builtins.kernel.debugText}, "
    ++ s!"basic_object: {builtins.basicObject.debugText} \x7d"

end Builtins

end NameResolution
