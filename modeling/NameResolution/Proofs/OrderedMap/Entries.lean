import Mathlib.Data.List.Basic
import NameResolution.OrderedMap.Lemmas

/-!
# Ordered maps, entry by entry

A map is its list of entries, so two ways of storing that give the same list give the same map, with
the keys in the same order. The entries themselves are what is found under the keys.

## Main statements

* `OrderedMap.insert_insertIfNew`, `OrderedMap.insertIfNew_of_find?` — storing twice under one key.
* `OrderedMap.filterMap_find?_keys`, `OrderedMap.flatMap_find?_keys` — what is found key by key.
-/

namespace NameResolution

universe u v w

namespace OrderedMap

variable {κ : Type u} {α : Type v} {β : Type w}

theorem eq_of_entries_eq {m n : OrderedMap κ α} (same : m.entries = n.entries) : m = n := by
  cases m
  cases n
  cases same
  rfl

variable [DecidableEq κ]

/-! ## Storing twice under one key -/

theorem upsertEntries_upsertEntries (key : κ) (f g : Option α → α) (entries : List (κ × α)) :
    upsertEntries key g (upsertEntries key f entries) =
      upsertEntries key (fun old => g (some (f old))) entries := by
  induction entries with
  | nil => simp [upsertEntries]
  | cons entry rest ih => grind [upsertEntries]

/-- A value that is replaced at once might as well not have been stored. -/
theorem insert_insertIfNew (m : OrderedMap κ α) (key : κ) (first second : α) :
    (m.insertIfNew key first).insert key second = m.insert key second :=
  eq_of_entries_eq (upsertEntries_upsertEntries key _ _ m.entries)

theorem upsertEntries_eq_self {key : κ} {value : α} {f : Option α → α}
    (keeps : f (some value) = value) {entries : List (κ × α)}
    (found : entries.lookup key = some value) : upsertEntries key f entries = entries := by
  induction entries with
  | nil => cases found
  | cons entry rest ih => grind [upsertEntries]

theorem insertIfNew_of_find? {m : OrderedMap κ α} {key : κ} {value : α}
    (found : m.find? key = some value) (other : α) : m.insertIfNew key other = m :=
  eq_of_entries_eq (upsertEntries_eq_self rfl found)

/-! ## Entries by key -/

theorem find?_of_mem_entries {m : OrderedMap κ α} {entry : κ × α} (mem : entry ∈ m.entries) :
    m.find? entry.1 = some entry.2 := (m.find?_eq_some_iff entry.1 entry.2).2 mem

theorem filterMap_find?_keys (m : OrderedMap κ α) :
    m.keys.filterMap m.find? = m.entries.map Prod.snd := by
  rw [keys, List.filterMap_map, List.filterMap_eq_map_iff_forall_eq_some]
  exact fun entry mem => find?_of_mem_entries mem

theorem flatMap_find?_keys (m : OrderedMap κ α) (f : κ → α → List β) :
    (m.keys.flatMap fun key => (m.find? key).toList.flatMap (f key)) =
      m.entries.flatMap fun entry => f entry.1 entry.2 := by
  rw [keys, List.flatMap_map]
  refine List.flatMap_congr fun entry mem => ?_
  rw [find?_of_mem_entries mem, Option.toList_some, List.flatMap_singleton]

end OrderedMap

end NameResolution
