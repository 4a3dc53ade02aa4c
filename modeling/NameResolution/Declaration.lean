import NameResolution.Location
import NameResolution.TypeExpr

/-!
# Declarations

What signature files declare: classes and modules, constants, aliases of classes and modules,
interfaces and type aliases.

## Main definitions

* `ModuleKind`, `Mixin` — the parts of a class or module declaration.
* `ModuleDecl`, `ConstantDecl`, `AliasDecl`, `InterfaceDecl`, `TypeAliasDecl` — the sorts of
  declaration.
* `Declaration` — any of them.
* `Declaration.references` — the names a declaration points at.
-/

namespace NameResolution

/-- Whether a declaration opens a class or a module. -/
inductive ModuleKind where
  | classKind
  | moduleKind
deriving DecidableEq, Repr

namespace ModuleKind

/-- The keyword of the kind. -/
def text : ModuleKind → String
  | classKind => "class"
  | moduleKind => "module"

end ModuleKind

/-- Where a mixed-in module goes: after the class or module that mixes it in, or before it. -/
inductive MixinForm where
  | included
  | prepended
deriving DecidableEq, Repr

namespace MixinForm

/-- The keyword of the form. -/
def text : MixinForm → String
  | included => "include"
  | prepended => "prepend"

end MixinForm

/-- A module mixed into the body of a class or module. -/
structure Mixin where
  form : MixinForm
  moduleName : QualifiedName
deriving DecidableEq, Repr

/-- What the head of a class or module declaration says beside the name. -/
inductive ModuleHead where
  | ofClass (superclass? : Option QualifiedName)
  | ofModule (selfTypes : List QualifiedName)
deriving DecidableEq, Repr

namespace ModuleHead

/-- The kind that the head opens. -/
def kind : ModuleHead → ModuleKind
  | ofClass _ => .classKind
  | ofModule _ => .moduleKind

/-- The superclass that the head states. -/
def superclass? : ModuleHead → Option QualifiedName
  | ofClass superclass? => superclass?
  | ofModule _ => none

/-- The names in the head. -/
def references : ModuleHead → List QualifiedName
  | ofClass superclass? => superclass?.toList
  | ofModule selfTypes => selfTypes

end ModuleHead

/-- A class or module, opened for the first time or again. -/
structure ModuleDecl where
  name : QualifiedName
  head : ModuleHead
  mixins : List Mixin
  location? : Option Location
deriving DecidableEq, Repr

/-- A constant and its type. -/
structure ConstantDecl where
  name : QualifiedName
  type : TypeExpr
  location? : Option Location
deriving DecidableEq, Repr

/-- A second name for a class or module. -/
structure AliasDecl where
  name : QualifiedName
  target : QualifiedName
  kind : ModuleKind
  location? : Option Location
deriving DecidableEq, Repr

/-- An interface. -/
structure InterfaceDecl where
  name : QualifiedName
  location? : Option Location
deriving DecidableEq, Repr

/-- A name for a type expression. -/
structure TypeAliasDecl where
  name : QualifiedName
  type : TypeExpr
  location? : Option Location
deriving DecidableEq, Repr

/-- Anything that a signature file declares. -/
inductive Declaration where
  | ofModule (decl : ModuleDecl)
  | ofConstant (decl : ConstantDecl)
  | ofAlias (decl : AliasDecl)
  | ofInterface (decl : InterfaceDecl)
  | ofTypeAlias (decl : TypeAliasDecl)
deriving DecidableEq, Repr

namespace Declaration

/-- The declared name. -/
def name : Declaration → QualifiedName
  | ofModule decl => decl.name
  | ofConstant decl => decl.name
  | ofAlias decl => decl.name
  | ofInterface decl => decl.name
  | ofTypeAlias decl => decl.name

/-- Where the declaration stands. -/
def location? : Declaration → Option Location
  | ofModule decl => decl.location?
  | ofConstant decl => decl.location?
  | ofAlias decl => decl.location?
  | ofInterface decl => decl.location?
  | ofTypeAlias decl => decl.location?

/-- The names the declaration points at: the head's, then the mixins', or an alias's target. -/
def references : Declaration → List QualifiedName
  | ofModule decl => decl.head.references ++ decl.mixins.map Mixin.moduleName
  | ofAlias decl => [decl.target]
  | ofConstant _ | ofInterface _ | ofTypeAlias _ => []

/-- Every name that has to be absolute: the declared one, then the references. -/
def mentioned (decl : Declaration) : List QualifiedName := decl.name :: decl.references

end Declaration

end NameResolution
