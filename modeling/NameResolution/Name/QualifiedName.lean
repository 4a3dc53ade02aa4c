import NameResolution.Name.Namespace

/-!
# Qualified names

A qualified name is a namespace and one last component, written `::A::B::C` when it is absolute.
It names a class, a module, a constant or a type.

## Main definitions

* `QualifiedName` — a namespace and a last component.
* `Namespace.toName?`, `QualifiedName.toNamespace` — the two readings of one path.
* `Namespace.qualify` — a name read relative to a namespace.
* `QualifiedName.splitFirst` — a name's first component and what is left of it.
* `QualifiedName.kind` — what a name denotes, told from how its last component starts.
-/

namespace NameResolution

/-- A last component inside a namespace. -/
structure QualifiedName where
  container : Namespace
  last : String
deriving DecidableEq, Repr, Inhabited

/-- What a name can denote where a type is expected. -/
inductive NameKind where
  | classOrModule
  | interface
  | typeAlias
deriving DecidableEq, Repr

namespace NameKind

/-- The name of the kind. -/
def text : NameKind → String
  | classOrModule => "class"
  | interface => "interface"
  | typeAlias => "alias"

end NameKind

namespace Namespace

/-- The namespace read as a name: its last component inside the rest. -/
def toName? (ns : Namespace) : Option QualifiedName :=
  ns.path.getLast?.map fun last => ⟨{ ns with path := ns.path.dropLast }, last⟩

/-- The name `component` directly inside the namespace. -/
def member (ns : Namespace) (component : String) : QualifiedName := ⟨ns, component⟩

/-- A name read inside a namespace: a relative name goes below it, an absolute name stays. -/
def qualify (ns : Namespace) (name : QualifiedName) : QualifiedName :=
  if name.container.isAbsolute then name
  else ⟨{ ns with path := ns.path ++ name.container.path }, name.last⟩

end Namespace

namespace QualifiedName

/-- Whether the name is counted from the root. -/
def isAbsolute (name : QualifiedName) : Bool := name.container.isAbsolute

/-- The name read as a namespace: what is declared inside it lives there. -/
def toNamespace (name : QualifiedName) : Namespace := name.container.append name.last

/-- The name of the enclosing namespace; none directly below the root. -/
def parent? (name : QualifiedName) : Option QualifiedName := name.container.toName?

/-- The same components counted from the root. -/
def toAbsolute (name : QualifiedName) : QualifiedName :=
  { name with container := name.container.toAbsolute }

/-- All components, outermost first. -/
def components (name : QualifiedName) : List String := name.container.path ++ [name.last]

/-- The first component, and the relative name of what follows it. -/
def splitFirst (name : QualifiedName) : String × Option QualifiedName :=
  match name.container.path with
  | [] => (name.last, none)
  | head :: rest => (head, some ⟨⟨false, rest⟩, name.last⟩)

/-- What the name denotes: a leading underscore marks an interface, a leading lowercase ASCII
letter a type alias, and anything else a class or module. -/
def kind (name : QualifiedName) : NameKind :=
  match name.last.toList with
  | [] => .classOrModule
  | c :: _ => if c = '_' then .interface else if c.isLower then .typeAlias else .classOrModule

/-! ## Written form -/

/-- The written form. -/
def text (name : QualifiedName) : String := name.container.text ++ name.last

/-- The written form, labelled for a log. -/
def debugText (name : QualifiedName) : String := "TypeName(" ++ name.text ++ ")"

instance : ToString QualifiedName := ⟨text⟩

end QualifiedName

end NameResolution
