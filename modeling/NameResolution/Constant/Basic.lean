import NameResolution.Location
import NameResolution.TypeExpr

/-!
# Constants

A constant is an absolute name with its type. Classes, modules and their aliases are constants
too, typed as the class object of their own name.

## Main definitions

* `Constant` — a name, a type and a location.
* `Constant.sameDeclaration` — equality that forgets the location.
* `Ambiguity` — two or more declarations that tie for one simple name.
* `Resolution` — what looking a simple name up gives.
-/

namespace NameResolution

/-- A declared name with its type. -/
structure Constant where
  name : QualifiedName
  type : TypeExpr
  location? : Option Location
deriving DecidableEq, Repr

namespace Constant

/-- Whether two constants have the same name and type, wherever they were written. -/
def sameDeclaration (c d : Constant) : Bool := c.name == d.name && c.type == d.type

/-- The name and the type, as in a signature. -/
def signature (c : Constant) : String := s!"{c.name.text}: {c.type.text}"

end Constant

/-- Several declarations that tie for one simple name. -/
structure Ambiguity where
  name : String
  candidates : List Constant
deriving DecidableEq, Repr

namespace Ambiguity

/-- The message for a reader. -/
def message (a : Ambiguity) : String :=
  let candidates := ", ".intercalate (a.candidates.map fun c => s!"`{c.signature}`")
  s!"constant `{a.name}` is ambiguous between {candidates}"

end Ambiguity

/-- What looking a simple name up gives. -/
inductive Resolution where
  | absent
  | found (constant : Constant)
  | ambiguous (conflict : Ambiguity)
deriving DecidableEq, Repr

namespace Resolution

/-- The resolution of `name` among the declarations `candidates` of one scope. -/
def ofCandidates (name : String) : List Constant → Resolution
  | [] => absent
  | [c] => found c
  | candidates => ambiguous ⟨name, candidates⟩

/-- The constant that a listing shows: the first candidate in case of a tie. -/
def first? : Resolution → Option Constant
  | absent => none
  | found c => some c
  | ambiguous conflict => conflict.candidates.head?

end Resolution

end NameResolution
