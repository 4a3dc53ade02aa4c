import Mathlib.Data.List.Perm.Subperm
import NameResolution.Proofs.Ancestry.Remembered
import NameResolution.Proofs.Lookup.Changes

/-!
# How much is remembered

Names are normalized before anything is remembered under them, so the tables and lineages that are
remembered belong to the root and to declared classes and modules. Whatever is asked, there are no
more lineages than declared classes and modules, and at most one table more.

## Main definitions

* `Environment.DeclaresAll` — a map has declared classes and modules for its keys.
* `Memory.Confined` — what is remembered belongs to declarations.

## Main statements

* `Memory.Change.confined` — a step keeps a memory confined.
* `Hierarchy.memory_bounded` — what is remembered of tables and lineages, and how much.
-/

namespace NameResolution

/-! ## Counting -/

/-- A map that has something under listed keys only is no longer than the list. -/
theorem OrderedMap.size_le_of_found {κ α : Type} [DecidableEq κ] {m : OrderedMap κ α}
    {keys : List κ} (among : ∀ key value, m.find? key = some value → key ∈ keys) :
    m.size ≤ keys.length := by
  have subset : m.keys ⊆ keys := by
    intro key mem
    obtain ⟨value, found⟩ := Option.isSome_iff_exists.1 ((m.mem_keys_iff key).1 mem)
    exact among key value found
  rw [← length_keys]
  exact (List.subperm_of_subset m.nodup_keys subset).length_le

namespace Environment

variable {α : Type} {env : Environment} {m : OrderedMap QualifiedName α}

/-- Everything in the map is stored under the name of a declared class or module. -/
def DeclaresAll (env : Environment) (m : OrderedMap QualifiedName α) : Prop :=
  ∀ name value, m.find? name = some value → (env.module? name).isSome

theorem DeclaresAll.insertIfNew {name : QualifiedName} (all : env.DeclaresAll m)
    (declared : (env.module? name).isSome) (value : α) :
    env.DeclaresAll (m.insertIfNew name value) := by
  intro other stored found
  rcases OrderedMap.find?_insertIfNew_cases found with before | ⟨rfl, -⟩
  · exact all other stored before
  · exact declared

theorem DeclaresAll.size_le (all : env.DeclaresAll m) : m.size ≤ env.modules.size := by
  rw [← env.modules.length_keys]
  exact OrderedMap.size_le_of_found fun name value found =>
    (env.modules.mem_keys_iff name).2 (all name value found)

end Environment

/-! ## Confined memories -/

theorem Hierarchy.Grown.declaresAll {h : Hierarchy} {known : Lineages} (grown : h.Grown known) :
    h.environment.DeclaresAll known := by
  refine grown.rule (fun _ _ found => nomatch found) ?_
  intro known name entry parts _ declared _ all
  exact all.insertIfNew (by simp [declared]) _

namespace Memory

variable {h : Hierarchy} {m later : Memory}

/-- Every table is that of a namespace which declarations can stand in, every lineage was worked out
from such lineages, and every listing of children is stored under a declared name. -/
structure Confined (h : Hierarchy) (m : Memory) : Prop where
  tables : ∀ ns table, m.tables.find? ns = some table →
    h.environment.HasTable ns ∧ table = h.environment.table ns
  lineages : h.Grown m.lineages
  children : h.environment.DeclaresAll m.children

theorem confined_empty (h : Hierarchy) : Confined h ∅ where
  tables := nofun
  lineages := .empty
  children := nofun

theorem Change.confined (change : Change h m later) (confined : Confined h m) :
    Confined h later := by
  cases change with
  | @openTable ns site =>
    refine { confined with tables := fun other table found => ?_ }
    rcases OrderedMap.find?_insertIfNew_cases found with before | ⟨rfl, rfl⟩
    · exact confined.tables other table before
    · exact ⟨site, rfl⟩
  | askAncestors name => exact { confined with lineages := confined.lineages.request name }
  | keepContext => exact { confined with }
  | keepChildren declared listing =>
    exact { confined with children := confined.children.insertIfNew declared listing }
  | keepTypeName => exact { confined with }

theorem Confined.of_reachable (reachable : Relation.ReflTransGen (Change h) ∅ m) :
    Confined h m := by
  induction reachable with
  | refl => exact confined_empty h
  | tail _ change ih => exact change.confined ih

theorem Confined.size_tables_le (confined : Confined h m) :
    m.tables.size ≤ 1 + h.environment.modules.size := by
  let sites := .root :: h.environment.modules.keys.map QualifiedName.toNamespace
  have among : ∀ ns table, m.tables.find? ns = some table → ns ∈ sites := by
    intro ns table found
    obtain ⟨rfl | ⟨name, declared, rfl⟩, -⟩ := confined.tables ns table found
    · exact List.mem_cons_self
    · exact List.mem_cons_of_mem _
        (List.mem_map_of_mem ((OrderedMap.mem_keys_iff ..).2 declared))
  calc m.tables.size ≤ sites.length := OrderedMap.size_le_of_found among
    _ = 1 + h.environment.modules.size := by simp [sites, Nat.add_comm]

end Memory

namespace Hierarchy

theorem confined_memoryAfter (h : Hierarchy) (queries : List Query) :
    (h.memoryAfter queries).Confined h :=
  .of_reachable (h.reachable_memoryAfter queries)

/-- Whatever was asked, about undeclared names, relative names, aliases or any contexts, each table
that is remembered belongs to the root or to a declared class or module and is the one built afresh
for that namespace, and each lineage belongs to a declared class or module. So there are at most as
many lineages as declared classes and modules, and at most one table more. -/
theorem memory_bounded (h : Hierarchy) (queries : List Query) :
    let m := h.memoryAfter queries
    (∀ ns table, m.tables.find? ns = some table →
      (ns = .root ∨ ∃ name, (h.environment.module? name).isSome ∧ ns = name.toNamespace) ∧
        table = h.environment.table ns) ∧
    (∀ name line, m.lineages.find? name = some line → (h.environment.module? name).isSome) ∧
    m.tables.size ≤ 1 + h.environment.modules.size ∧
    m.lineages.size ≤ h.environment.modules.size := by
  intro m
  have confined : m.Confined h := h.confined_memoryAfter queries
  exact ⟨confined.tables, confined.lineages.declaresAll, confined.size_tables_le,
    confined.lineages.declaresAll.size_le⟩

/-- Four declared classes and modules, asked for along with names that lead nowhere: a relative one,
an undeclared one, and contexts of both. -/
example :
    let relative : QualifiedName := ⟨.empty, "A"⟩
    let nowhere := Namespace.root.member "Nowhere"
    let m := Hierarchy.memoryAfter ⟨.entangled, .standard⟩
      [.rootTable, .childTable relative, .childTable nowhere, .ancestors relative,
        .constants ⟨[nowhere, relative]⟩, .resolve "X" ⟨[⟨.root, "A"⟩, nowhere]⟩,
        .resolveChild ⟨.root, "C"⟩ "X"]
    m.tables.keys = [.root, ⟨true, ["A"]⟩, ⟨true, ["B"]⟩, ⟨true, ["C"]⟩, ⟨true, ["M"]⟩] ∧
      m.lineages.size = 4 := by
  decide +kernel

/-- Listings of children are stored under declared names too, and no more of them. -/
theorem size_children_memoryAfter_le (h : Hierarchy) (queries : List Query) :
    (h.memoryAfter queries).children.size ≤ h.environment.modules.size :=
  (h.confined_memoryAfter queries).children.size_le

end Hierarchy

end NameResolution
