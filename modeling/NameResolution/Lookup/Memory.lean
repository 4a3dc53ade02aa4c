import NameResolution.Ancestry.Lineage
import NameResolution.Constant.Table
import NameResolution.Lookup.Context

/-!
# What lookups remember

Lookups over one hierarchy share a memory of what they have worked out. Everything is worked out
when it is first asked for and never again.

## Main definitions

* `Listing` — one constant for each simple name.
* `Memory` — everything remembered.
* `Memory.withLineages` — a computation on the lineages, run on the whole memory.
* `Hierarchy.recallAncestors?` — the ancestors of a name, through the memory.
* `Hierarchy.openTable` — the table of a namespace, through the memory.
-/

namespace NameResolution

/-- One constant for each simple name. A name keeps the place where it first came in. -/
abbrev Listing := OrderedMap String Constant

/-- What the lookups over one hierarchy remember. -/
structure Memory where
  tables : OrderedMap Namespace ConstantTable
  lineages : Lineages
  /-- The constants visible in a context. -/
  contexts : OrderedMap Context Listing
  /-- The constants reachable through a class or module. -/
  children : OrderedMap QualifiedName Listing
  /-- The meanings of relative type names. -/
  typeNames : OrderedMap (QualifiedName × Context) (Option QualifiedName)

namespace Memory

/-- Nothing remembered. -/
def empty : Memory := ⟨∅, ∅, ∅, ∅, ∅⟩

instance : EmptyCollection Memory := ⟨empty⟩

instance : Inhabited Memory := ⟨empty⟩

/-- How much of the constant lookups is remembered, for a log. -/
def constantsDebugText (memory : Memory) (builtins : Builtins) : String :=
  s!"ConstantResolver \x7b table: ConstantTable \x7b cached: {memory.tables.size} \x7d, "
    ++ s!"ancestors: AncestorBuilder \x7b builtins: {builtins.debugText}, "
    ++ s!"cached: {memory.lineages.size} \x7d, contexts: {memory.contexts.size} \x7d"

/-- How many meanings of type names are remembered, for a log. -/
def typeNamesDebugText (memory : Memory) : String :=
  s!"TypeNameResolver \x7b cached: {memory.typeNames.size} \x7d"

/-- Run a computation on the lineages alone. -/
def withLineages {α : Type} (compute : StateM Lineages α) : StateM Memory α :=
  modifyGet fun memory =>
    let (result, lineages) := compute.run memory.lineages
    (result, { memory with lineages })

end Memory

namespace Hierarchy

/-- The lineage of the class or module that `name` stands for. -/
def recallAncestors? (h : Hierarchy) (name : QualifiedName) :
    StateM Memory (Option (List QualifiedName)) :=
  Memory.withLineages (h.ancestors? name)

/-- The table of a namespace. -/
def openTable (h : Hierarchy) (ns : Namespace) : StateM Memory ConstantTable := do
  if let some known := (← get).tables.find? ns then
    return known
  let table := h.environment.table ns
  modify fun memory => { memory with tables := memory.tables.insertIfNew ns table }
  return table

/-- The table of the constants declared at the root. -/
def openRoot (h : Hierarchy) : StateM Memory ConstantTable := h.openTable .root

/-- The table of the constants declared directly in the class or module that `name` stands for;
none when it stands for none. -/
def openChildren? (h : Hierarchy) (name : QualifiedName) :
    StateM Memory (Option ConstantTable) := do
  match h.environment.normalize? name with
  | none => return none
  | some target => return some (← h.openTable target.toNamespace)

/-- The table that `name` itself is listed in: that of its parent, or of the root. -/
def openEnclosing? (h : Hierarchy) (name : QualifiedName) :
    StateM Memory (Option ConstantTable) := do
  match name.parent? with
  | none => return some (← h.openRoot)
  | some parent => h.openChildren? parent

/-- The entry of `name` in the table that it is listed in. -/
def constantAt (h : Hierarchy) (name : QualifiedName) : StateM Memory Resolution := do
  match ← h.openEnclosing? name with
  | none => return .absent
  | some table => return table.lookup name.last

end Hierarchy

end NameResolution
