import NameResolution.Name.QualifiedName

/-!
# The order of names

Relative paths come before absolute ones; paths with the same flag are compared component by
component, a path before its extensions; names in one namespace are compared by their last
component. Components are compared by code points.

## Main definitions

* `Namespace.compare`, `QualifiedName.compare` — the comparisons, and `Ord` instances.
* `sortDistinct` — a list of names in ascending order, each once.
-/

namespace NameResolution

/-- Compare by the flag, then by the components. -/
def Namespace.compare (a b : Namespace) : Ordering :=
  (Ord.compare a.isAbsolute b.isAbsolute).then (Ord.compare a.path b.path)

instance : Ord Namespace := ⟨Namespace.compare⟩

/-- Compare by the namespace, then by the last component. -/
def QualifiedName.compare (a b : QualifiedName) : Ordering :=
  (Ord.compare a.container b.container).then (Ord.compare a.last b.last)

instance : Ord QualifiedName := ⟨QualifiedName.compare⟩

/-- Keep the first of each run of equal neighbours. -/
def dropRepeats {α : Type} [DecidableEq α] : List α → List α
  | [] => []
  | [a] => [a]
  | a :: b :: rest => if a = b then dropRepeats (b :: rest) else a :: dropRepeats (b :: rest)

/-- The names in ascending order, without repetitions. -/
def sortDistinct (names : List QualifiedName) : List QualifiedName :=
  dropRepeats (names.mergeSort fun a b => (Ord.compare a b).isLE)

end NameResolution
