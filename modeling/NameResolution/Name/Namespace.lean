import NameResolution.Name.Component

/-!
# Namespaces

A namespace is a path of components that can hold declarations, written `::A::B::` when it is
absolute and `A::B::` when it is relative. Components are kept as they are given; two namespaces
are equal when their flags and their components are.

## Main definitions

* `Namespace` — the path and its absolute flag.
* `Namespace.append`, `Namespace.parent?` — one step down and one step up.
* `Namespace.ascend` — the namespace and everything around it, innermost first.
* `Namespace.text` — the written form.
-/

namespace NameResolution

/-- A path of components under which declarations live. -/
structure Namespace where
  isAbsolute : Bool
  path : List String
deriving DecidableEq, Repr, Inhabited

namespace Namespace

/-- The namespace around everything. -/
def root : Namespace := ⟨true, []⟩

/-- The relative namespace without components. -/
def empty : Namespace := ⟨false, []⟩

/-- Whether the path has no components. -/
def isEmpty (ns : Namespace) : Bool := ns.path.isEmpty

/-- Whether this is the root. -/
def isRoot (ns : Namespace) : Bool := ns.isAbsolute && ns.isEmpty

/-- The namespace `component` directly below. -/
def append (ns : Namespace) (component : String) : Namespace :=
  { ns with path := ns.path ++ [component] }

/-- The namespace directly around this one. -/
def parent? (ns : Namespace) : Option Namespace :=
  if ns.path = [] then none else some { ns with path := ns.path.dropLast }

/-- The same path counted from the root. -/
def toAbsolute (ns : Namespace) : Namespace := { ns with isAbsolute := true }

/-- The same path counted from anywhere. -/
def toRelative (ns : Namespace) : Namespace := { ns with isAbsolute := false }

theorem length_path_of_parent? {ns up : Namespace} (h : ns.parent? = some up) :
    up.path.length < ns.path.length := by
  unfold parent? at h
  split at h
  · simp at h
  · next hne =>
    obtain rfl := Option.some.inj h
    have := List.length_pos_iff.2 hne
    simp only [List.length_dropLast]
    omega

/-- The namespace itself, then each namespace around it, out to the one without components. -/
def ascend (ns : Namespace) : List Namespace :=
  match _h : ns.parent? with
  | none => [ns]
  | some up => ns :: up.ascend
termination_by ns.path.length
decreasing_by exact length_path_of_parent? _h

/-! ## Written form -/

/-- The written form: each component is followed by a separator, and a separator in front marks an
absolute path. -/
def text (ns : Namespace) : String :=
  (if ns.isAbsolute then separator else "") ++ String.join (ns.path.map (· ++ separator))

/-- The written form, labelled for a log. -/
def debugText (ns : Namespace) : String := "Namespace(" ++ ns.text ++ ")"

instance : ToString Namespace := ⟨text⟩

end Namespace

end NameResolution
