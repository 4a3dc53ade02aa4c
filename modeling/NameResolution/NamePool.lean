/-!
# Name pools

A pool gives every simple name it has seen a small number. Numbers start at one and follow the
order of first insertion; zero stands for "no name" and is never given out.

## Main definitions

* `NameId` — the 32-bit number of a name.
* `NamePool` — the names seen so far.
* `NamePool.insert`, `NamePool.find?`, `NamePool.text?` — from names to numbers and back.
-/

namespace NameResolution

/-- The number of a name in some pool. -/
structure NameId where
  index : UInt32
deriving DecidableEq, Repr

namespace NameId

/-- The number that stands for no name. -/
def unset : NameId := ⟨0⟩

/-- Whether the number stands for no name. -/
def isUnset (id : NameId) : Bool := id.index == 0

/-- The number, labelled for a log. -/
def debugText (id : NameId) : String :=
  if id.isUnset then "ConstantId(unset)" else s!"ConstantId({id.index})"

end NameId

/-- The distinct names seen so far, in the order of first insertion. -/
structure NamePool where
  names : List String
  nodup_names : names.Nodup

namespace NamePool

/-- The pool that has seen nothing. -/
def empty : NamePool := ⟨[], List.nodup_nil⟩

instance : Inhabited NamePool := ⟨empty⟩

/-- The number of names seen. -/
def size (pool : NamePool) : Nat := pool.names.length

/-- Whether nothing has been seen. -/
def isEmpty (pool : NamePool) : Bool := pool.names.isEmpty

/-- Whether the name has been seen. -/
def contains (pool : NamePool) (name : String) : Bool := pool.names.contains name

/-- The number of the name at a position of the list. -/
def idAt (position : Nat) : NameId := ⟨(position + 1).toUInt32⟩

/-- The number of a name seen before. -/
def find? (pool : NamePool) (name : String) : Option NameId :=
  (pool.names.idxOf? name).map idAt

theorem isSome_find?_iff (pool : NamePool) (name : String) :
    (pool.find? name).isSome ↔ name ∈ pool.names := by
  rw [find?, Option.isSome_map, List.isSome_idxOf?]

/-- The pool after seeing `name`. -/
def insert (pool : NamePool) (name : String) : NamePool :=
  if h : name ∈ pool.names then pool
  else ⟨pool.names ++ [name], by
    refine List.nodup_append.2 ⟨pool.nodup_names, by simp, ?_⟩
    rintro a ha b hb rfl
    exact h (List.mem_singleton.1 hb ▸ ha)⟩

/-- The name behind a number of this pool. -/
def text? (pool : NamePool) (id : NameId) : Option String :=
  if id.isUnset then none else pool.names[id.index.toNat - 1]?

/-- The size of the pool, labelled for a log. -/
def debugText (pool : NamePool) : String :=
  s!"ConstantPool \x7b count: {pool.size} \x7d"

end NamePool

end NameResolution
