import NameResolution.NamePool
import NameResolution.OrderedMap.Basic

/-!
# Indexed name pools

A pool can keep two indexes side by side, from names to numbers and from numbers to names. A name
that is new goes to the end of the second index, and the length it has then is stored as the name's
number in the first one, cut down to 32 bits.

Several pools may be in use at once. Each has its place on a shelf; pools are made empty or copied
from others, and names are inserted into one of them at a time.

## Main definitions

* `IndexedPool` — the two indexes.
* `IndexedPool.insert` — the number of a name, and the pool that knows it.
* `PoolOp` — what is done to the pools of a shelf.
* `PoolOp.run` — the shelf afterwards, for pools of any form.
-/

namespace NameResolution

/-- Two indexes of the names seen so far. -/
structure IndexedPool where
  /-- The number of each name. -/
  ids : OrderedMap String NameId
  /-- The names by their numbers, of which the first is one. -/
  names : List String

namespace IndexedPool

/-- The pool that has seen nothing. -/
def empty : IndexedPool := ⟨∅, []⟩

instance : Inhabited IndexedPool := ⟨empty⟩

/-- The number of names seen. -/
def size (pool : IndexedPool) : Nat := pool.names.length

/-- The number of a name seen before. -/
def find? (pool : IndexedPool) (name : String) : Option NameId := pool.ids.find? name

/-- The name behind a number of this pool. -/
def text? (pool : IndexedPool) (id : NameId) : Option String :=
  if id.isUnset then none else pool.names[id.index.toNat - 1]?

/-- The number of `name`, and the pool after seeing it. A name seen before keeps its number. -/
def insert (pool : IndexedPool) (name : String) : NameId × IndexedPool :=
  match pool.find? name with
  | some id => (id, pool)
  | none =>
    let names := pool.names ++ [name]
    let id : NameId := ⟨names.length.toUInt32⟩
    (id, ⟨pool.ids.insert name id, names⟩)

end IndexedPool

/-! ## Shelves -/

/-- Something done to the pools of a shelf. -/
inductive PoolOp where
  /-- An empty pool is put at the end of the shelf. -/
  | create
  /-- A name is inserted into the pool at some place. -/
  | insert (place : Nat) (name : String)
  /-- A copy of the pool at some place is put at the end of the shelf. -/
  | copy (place : Nat)
deriving DecidableEq, Repr

namespace PoolOp

variable {π : Type}

/-- The shelf after one operation, on pools that start as `fresh` and see names by `add`. Nothing is
done at a place without a pool. -/
def apply (fresh : π) (add : π → String → π) (shelf : List π) : PoolOp → List π
  | create => shelf ++ [fresh]
  | insert place name => shelf.modify place (add · name)
  | copy place => shelf ++ shelf[place]?.toList

/-- The shelf after some operations in order. -/
def run (fresh : π) (add : π → String → π) (shelf : List π) (ops : List PoolOp) : List π :=
  ops.foldl (apply fresh add) shelf

end PoolOp

/-- The pools on a shelf that was empty at first. -/
def IndexedPool.shelf (ops : List PoolOp) : List IndexedPool :=
  PoolOp.run .empty (fun pool name => (pool.insert name).2) [] ops

end NameResolution
