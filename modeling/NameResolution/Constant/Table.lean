import NameResolution.Constant.Basic
import NameResolution.Environment.Basic

/-!
# Constant tables

The constants declared directly in one namespace, by simple name. A simple name has one candidate
for each distinct declaration; declarations that differ only in their location count once.

## Main definitions

* `ConstantTable` — the candidates of each simple name.
* `ConstantTable.insert` — adds a candidate.
* `ConstantTable.lookup` — the constant of a name, none, or a tie.
* `Environment.table` — the table of a namespace.
-/

namespace NameResolution

/-- The candidates of each simple name, in the order in which they came. -/
structure ConstantTable where
  entries : OrderedMap String (List Constant)

namespace ConstantTable

/-- The table without constants. -/
def empty : ConstantTable := ⟨∅⟩

instance : EmptyCollection ConstantTable := ⟨empty⟩

instance : Inhabited ConstantTable := ⟨empty⟩

/-- The candidates of a name. -/
def candidates (table : ConstantTable) (name : String) : List Constant :=
  (table.entries.find? name).getD []

/-- The candidates with one more, unless it repeats the declaration of one of them. -/
def addCandidate (candidates : List Constant) (constant : Constant) : List Constant :=
  if candidates.any (·.sameDeclaration constant) then candidates else candidates ++ [constant]

/-- Add a constant under the last component of its name. -/
def insert (table : ConstantTable) (constant : Constant) : ConstantTable :=
  ⟨table.entries.upsert constant.name.last fun known => addCandidate (known.getD []) constant⟩

/-- The table of a list of constants. -/
def ofList (constants : List Constant) : ConstantTable := constants.foldl insert empty

/-- The first candidate of a name. -/
def get? (table : ConstantTable) (name : String) : Option Constant := (table.candidates name).head?

/-- What the table says of a name. -/
def lookup (table : ConstantTable) (name : String) : Resolution :=
  .ofCandidates name (table.candidates name)

/-- Whether the table has the name. -/
def contains (table : ConstantTable) (name : String) : Bool := table.entries.contains name

/-- The names, in the order in which they came. -/
def keys (table : ConstantTable) : List String := table.entries.keys

/-- The number of names. -/
def size (table : ConstantTable) : Nat := table.entries.size

/-- Whether the table has no names. -/
def isEmpty (table : ConstantTable) : Bool := table.entries.isEmpty

/-- Each name with its first candidate. -/
def firsts (table : ConstantTable) : List (String × Constant) :=
  table.entries.entries.filterMap fun (name, candidates) => candidates.head?.map (name, ·)

/-- The names with more than one candidate. -/
def ambiguities (table : ConstantTable) : List Ambiguity :=
  (table.entries.entries.filter (1 < ·.2.length)).map fun (name, candidates) => ⟨name, candidates⟩

/-- Whether two tables have the same names with the same candidates, in whatever order the names
came. -/
def sameBindings (s t : ConstantTable) : Bool := s.entries.sameBindings t.entries

end ConstantTable

namespace Environment

/-- The constants that the declarations of one name give: the class or module, then the alias,
then each declaration as a constant. -/
def constantsNamed (env : Environment) (name : QualifiedName) : List Constant :=
  ((env.module? name).map fun entry => ⟨name, .singleton name, entry.locations.head?⟩).toList ++
    ((env.alias? name).map fun decl => ⟨name, .singleton name, decl.location?⟩).toList ++
    (env.constantDecls name).map fun decl => ⟨name, decl.type, decl.location?⟩

/-- The constants declared directly in a namespace. -/
def table (env : Environment) (ns : Namespace) : ConstantTable :=
  .ofList ((env.membersOf ns).flatMap env.constantsNamed)

end Environment

end NameResolution
