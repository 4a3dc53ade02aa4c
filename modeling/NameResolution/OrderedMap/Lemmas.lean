import NameResolution.OrderedMap.Basic

/-!
# Ordered maps: laws

How each operation acts on the two views of a map, `find?` and `keys`.

## Main statements

* `OrderedMap.find?_upsert` — an update is seen under its own key and nowhere else.
* `OrderedMap.keys_upsert` — a known key keeps its place and a new key goes to the end.
* `OrderedMap.find?_eq_some_iff` — a lookup succeeds exactly on the entries.
-/

namespace NameResolution

universe u v

namespace OrderedMap

variable {κ : Type u} {α : Type v} [DecidableEq κ]

/-! ## Entry lists -/

theorem lookup_upsertEntries (key other : κ) (f : Option α → α) (entries : List (κ × α)) :
    (upsertEntries key f entries).lookup other =
      if other = key then some (f (entries.lookup key)) else entries.lookup other := by
  induction entries with
  | nil => grind [upsertEntries]
  | cons entry rest ih => grind [upsertEntries]

theorem lookup_eq_some_iff_mem {entries : List (κ × α)} (h : (entries.map Prod.fst).Nodup)
    (key : κ) (value : α) : entries.lookup key = some value ↔ (key, value) ∈ entries := by
  induction entries with
  | nil => simp
  | cons entry rest ih =>
    obtain ⟨k, a⟩ := entry
    have hrest := ih (List.nodup_cons.1 h).2
    have hk : k ∉ rest.map Prod.fst := (List.nodup_cons.1 h).1
    by_cases hkey : key = k
    · subst hkey
      have : (key, value) ∉ rest := fun hm => hk (List.mem_map.2 ⟨_, hm, rfl⟩)
      simp [this, eq_comm]
    · have hne : (key == k) = false := by simpa using hkey
      simp [List.lookup_cons, hne, hrest, hkey]

/-! ## Maps -/

@[simp] theorem find?_empty (key : κ) : (empty : OrderedMap κ α).find? key = none := rfl

omit [DecidableEq κ] in
@[simp] theorem keys_empty : (empty : OrderedMap κ α).keys = [] := rfl

omit [DecidableEq κ] in
@[simp] theorem length_keys (m : OrderedMap κ α) : m.keys.length = m.size := List.length_map ..

theorem find?_upsert (m : OrderedMap κ α) (key other : κ) (f : Option α → α) :
    (m.upsert key f).find? other =
      if other = key then some (f (m.find? key)) else m.find? other :=
  lookup_upsertEntries key other f m.entries

theorem keys_upsert (m : OrderedMap κ α) (key : κ) (f : Option α → α) :
    (m.upsert key f).keys = if key ∈ m.keys then m.keys else m.keys ++ [key] :=
  keys_upsertEntries key f m.entries

theorem find?_insert (m : OrderedMap κ α) (key other : κ) (value : α) :
    (m.insert key value).find? other = if other = key then some value else m.find? other :=
  m.find?_upsert key other _

theorem find?_insertIfNew (m : OrderedMap κ α) (key other : κ) (value : α) :
    (m.insertIfNew key value).find? other =
      if other = key then some ((m.find? key).getD value) else m.find? other :=
  m.find?_upsert key other _

theorem find?_eq_some_iff (m : OrderedMap κ α) (key : κ) (value : α) :
    m.find? key = some value ↔ (key, value) ∈ m.entries :=
  lookup_eq_some_iff_mem m.nodup_keys key value

theorem mem_keys_iff (m : OrderedMap κ α) (key : κ) : key ∈ m.keys ↔ (m.find? key).isSome := by
  simp only [keys, List.mem_map, Option.isSome_iff_exists, find?_eq_some_iff]
  exact ⟨fun ⟨entry, hmem, hkey⟩ => ⟨entry.2, hkey ▸ hmem⟩, fun ⟨value, hmem⟩ => ⟨_, hmem, rfl⟩⟩

theorem mem_keys_insert (m : OrderedMap κ α) (key other : κ) (value : α) :
    other ∈ (m.insert key value).keys ↔ other ∈ m.keys ∨ other = key := by
  rw [mem_keys_iff, mem_keys_iff, find?_insert]
  split <;> simp [*]

theorem contains_iff_mem_keys (m : OrderedMap κ α) (key : κ) :
    m.contains key = true ↔ key ∈ m.keys := (m.mem_keys_iff key).symm

end OrderedMap

end NameResolution
