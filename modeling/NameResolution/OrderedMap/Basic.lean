/-!
# Ordered maps

A finite map that remembers the order in which its keys first arrived. Storing under a key that
is already present replaces the value and leaves the key where it is; a new key goes to the end.

## Main definitions

* `OrderedMap κ α` — the map, a list of entries with distinct keys.
* `OrderedMap.upsert` — the one way a map grows: compute the new value of a key from its old one.
* `OrderedMap.find?` — the view: the value stored under a key.
* `OrderedMap.sameBindings` — equality that forgets the order of the keys.
-/

namespace NameResolution

universe u v

/-- A finite map from `κ` to `α` whose entries stand in the order of their keys' first arrival. -/
structure OrderedMap (κ : Type u) (α : Type v) where
  entries : List (κ × α)
  nodup_keys : (entries.map Prod.fst).Nodup

namespace OrderedMap

variable {κ : Type u} {α : Type v}

/-! ## Entry lists -/

/-- Replace the value under `key`, or put a new entry at the end when there is none. The new value
is `f` of the old one. -/
def upsertEntries [DecidableEq κ] (key : κ) (f : Option α → α) : List (κ × α) → List (κ × α)
  | [] => [(key, f none)]
  | (k, a) :: rest =>
    if k = key then (k, f (some a)) :: rest else (k, a) :: upsertEntries key f rest

theorem keys_upsertEntries [DecidableEq κ] (key : κ) (f : Option α → α) (entries : List (κ × α)) :
    (upsertEntries key f entries).map Prod.fst =
      if key ∈ entries.map Prod.fst then entries.map Prod.fst
      else entries.map Prod.fst ++ [key] := by
  induction entries with
  | nil => simp [upsertEntries]
  | cons entry rest ih => grind [upsertEntries]

theorem nodup_keys_upsertEntries [DecidableEq κ] (key : κ) (f : Option α → α)
    {entries : List (κ × α)} (h : (entries.map Prod.fst).Nodup) :
    ((upsertEntries key f entries).map Prod.fst).Nodup := by
  rw [keys_upsertEntries]
  split
  · exact h
  · next absent =>
    refine List.nodup_append.2 ⟨h, by simp, ?_⟩
    rintro a ha b hb rfl
    exact absent (List.mem_singleton.1 hb ▸ ha)

/-! ## Maps -/

/-- The map without entries. -/
def empty : OrderedMap κ α := ⟨[], List.nodup_nil⟩

instance : EmptyCollection (OrderedMap κ α) := ⟨empty⟩

instance : Inhabited (OrderedMap κ α) := ⟨empty⟩

/-- The keys, in the order of their first arrival. -/
def keys (m : OrderedMap κ α) : List κ := m.entries.map Prod.fst

/-- The number of keys. -/
def size (m : OrderedMap κ α) : Nat := m.entries.length

/-- Whether the map has no keys. -/
def isEmpty (m : OrderedMap κ α) : Bool := m.entries.isEmpty

/-- The value stored under `key`. -/
def find? [DecidableEq κ] (m : OrderedMap κ α) (key : κ) : Option α := m.entries.lookup key

/-- Whether a value is stored under `key`. -/
def contains [DecidableEq κ] (m : OrderedMap κ α) (key : κ) : Bool := (m.find? key).isSome

/-- Store `f` of the old value under `key`; the old value is `none` for a new key. -/
def upsert [DecidableEq κ] (m : OrderedMap κ α) (key : κ) (f : Option α → α) : OrderedMap κ α :=
  ⟨upsertEntries key f m.entries, nodup_keys_upsertEntries key f m.nodup_keys⟩

/-- Store `value` under `key`, whatever was there. -/
def insert [DecidableEq κ] (m : OrderedMap κ α) (key : κ) (value : α) : OrderedMap κ α :=
  m.upsert key fun _ => value

/-- Store `value` under `key` unless something is there already. -/
def insertIfNew [DecidableEq κ] (m : OrderedMap κ α) (key : κ) (value : α) : OrderedMap κ α :=
  m.upsert key (·.getD value)

/-- Whether two maps have the same keys with the same values, in whatever order. -/
def sameBindings [DecidableEq κ] [DecidableEq α] (m n : OrderedMap κ α) : Bool :=
  m.size == n.size && m.entries.all fun entry => n.find? entry.1 == some entry.2

end OrderedMap

end NameResolution
