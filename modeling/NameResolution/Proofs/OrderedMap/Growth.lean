import NameResolution.OrderedMap.Lemmas

/-!
# Growing maps

A map that is only ever added to keeps every entry it once had. Two ways of adding are described
here: one entry that gives way to an older one, and a list of entries that replace older ones.

## Main statements

* `OrderedMap.GrowsTo.insertIfNew` — an entry that gives way to older ones loses none of them.
* `OrderedMap.find?_insertAll` — entries with distinct keys are found before older ones.
-/

namespace NameResolution

universe u v

namespace OrderedMap

variable {κ : Type u} {α : Type v} [DecidableEq κ]

/-! ## Maps that keep their entries -/

/-- Everything that is stored in `m` is stored in `n` under the same key. -/
def GrowsTo (m n : OrderedMap κ α) : Prop :=
  ∀ key value, m.find? key = some value → n.find? key = some value

namespace GrowsTo

variable {l m n : OrderedMap κ α}

protected theorem refl (m : OrderedMap κ α) : m.GrowsTo m := fun _ _ found => found

protected theorem trans (first : l.GrowsTo m) (second : m.GrowsTo n) : l.GrowsTo n :=
  fun key value found => second key value (first key value found)

theorem insertIfNew (m : OrderedMap κ α) (key : κ) (value : α) :
    m.GrowsTo (m.insertIfNew key value) := by
  intro other stored found
  rw [find?_insertIfNew]
  split
  · next same =>
    subst same
    simp [found]
  · exact found

theorem isSome (grows : m.GrowsTo n) {key : κ} (found : (m.find? key).isSome) :
    (n.find? key).isSome := by
  obtain ⟨value, stored⟩ := Option.isSome_iff_exists.1 found
  simp [grows key value stored]

/-- A key that is already known has the same value later. -/
theorem find?_eq (grows : m.GrowsTo n) {key : κ} (found : (m.find? key).isSome) :
    n.find? key = m.find? key := by
  obtain ⟨value, stored⟩ := Option.isSome_iff_exists.1 found
  rw [stored, grows key value stored]

end GrowsTo

/-- A new key is found with its new value. -/
theorem find?_insertIfNew_self {m : OrderedMap κ α} {key : κ} (value : α)
    (fresh : m.find? key = none) : (m.insertIfNew key value).find? key = some value := by
  simp [find?_insertIfNew, fresh]

/-- Every entry of a map after `insertIfNew` was there before or is the new one. -/
theorem find?_insertIfNew_cases {m : OrderedMap κ α} {key other : κ} {value stored : α}
    (found : (m.insertIfNew key value).find? other = some stored) :
    m.find? other = some stored ∨ other = key ∧ stored = value := by
  rw [find?_insertIfNew] at found
  split at found
  · next same =>
    subst same
    cases known : m.find? other with
    | none => simp_all
    | some old => simp_all
  · exact .inl found

/-! ## Inserting a list of entries -/

/-- Store every entry of a list, in place of older ones. -/
def insertAll (m : OrderedMap κ α) (entries : List (κ × α)) : OrderedMap κ α :=
  entries.foldl (fun m entry => m.insert entry.1 entry.2) m

theorem find?_insertAll (m : OrderedMap κ α) {entries : List (κ × α)}
    (distinct : (entries.map Prod.fst).Nodup) (key : κ) :
    (m.insertAll entries).find? key = (entries.lookup key).or (m.find? key) := by
  induction entries generalizing m with
  | nil => rfl
  | cons entry rest ih =>
    obtain ⟨k, a⟩ := entry
    obtain ⟨absent, distinctRest⟩ := List.nodup_cons.1 distinct
    have step : (m.insertAll ((k, a) :: rest)).find? key =
        (rest.lookup key).or (if key = k then some a else m.find? key) := by
      rw [← find?_insert]
      exact ih (m.insert k a) distinctRest
    rw [step, List.lookup_cons]
    by_cases same : key = k
    · subst same
      have none_later : rest.lookup key = none := by
        rw [List.lookup_eq_none_iff]
        intro p hp
        simpa using fun e => absent (List.mem_map.2 ⟨p, hp, e.symm⟩)
      simp [none_later]
    · have differs : (key == k) = false := by simpa using same
      simp [same, differs]

end OrderedMap

end NameResolution
