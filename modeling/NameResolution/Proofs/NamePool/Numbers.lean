import NameResolution.NamePool.Indexed
import NameResolution.OrderedMap.Lemmas
import NameResolution.Proofs.Lists

/-!
# The numbers of a pool

As long as its numbers fit into 32 bits, a pool with `n` names numbers them from one to `n` in the
order of their first insertion, and reading a number back undoes it. A pool with two indexes answers
as one that searches its list of names, however many names there are.

## Main definitions

* `IndexedPool.Mirrors` — a pool with two indexes has the names of a plain one, under its numbers.

## Main statements

* `NamePool.find?_eq_some_iff_text?` — numbers and texts are inverse to each other.
* `NamePool.map_find?_names` — the numbers of all names.
* `IndexedPool.Mirrors.insert` — inserting a name keeps the two pools alike.
-/

namespace NameResolution

namespace NamePool

variable {pool : NamePool} {name : String} {id : NameId}

/-! ## Positions -/

theorem toNat_idAt {position : Nat} (fits : position + 1 < UInt32.size) :
    (idAt position).index.toNat = position + 1 :=
  UInt32.toNat_ofNat_of_lt' fits

theorem isUnset_iff : id.isUnset ↔ id.index.toNat = 0 := by
  simp [NameId.isUnset, ← UInt32.toNat_inj]

theorem text?_eq_some_iff :
    pool.text? id = some name ↔
      0 < id.index.toNat ∧ pool.names[id.index.toNat - 1]? = some name := by
  unfold text?
  split
  · next unset => simp [isUnset_iff.1 unset]
  · next set => simp [Nat.pos_of_ne_zero (mt isUnset_iff.2 set)]

theorem idxOf?_names_eq_some_iff {position : Nat} :
    pool.names.idxOf? name = some position ↔ pool.names[position]? = some name := by
  rw [List.idxOf?_eq_some_iff, List.getElem?_eq_some_iff]
  constructor
  · exact fun ⟨inside, here, _⟩ => ⟨inside, here⟩
  · rintro ⟨inside, rfl⟩
    refine ⟨inside, rfl, fun earlier before same => ?_⟩
    exact Nat.ne_of_lt before ((List.getElem_inj pool.nodup_names).1 same)

theorem find?_eq_some_iff :
    pool.find? name = some id ↔
      ∃ position, pool.names[position]? = some name ∧ idAt position = id := by
  simp [find?, idxOf?_names_eq_some_iff]

/-! ## Numbers that fit -/

theorem toNat_idAt_of_getElem? {position : Nat} (room : pool.size < UInt32.size)
    (here : pool.names[position]? = some name) : (idAt position).index.toNat = position + 1 := by
  have inside : position < pool.size := (List.getElem?_eq_some_iff.1 here).1
  exact toNat_idAt (by omega)

theorem find?_eq_some_iff_text? (room : pool.size < UInt32.size) :
    pool.find? name = some id ↔ pool.text? id = some name := by
  rw [find?_eq_some_iff, text?_eq_some_iff]
  constructor
  · rintro ⟨position, here, rfl⟩
    rw [toNat_idAt_of_getElem? room here]
    exact ⟨position.succ_pos, here⟩
  · rintro ⟨set, here⟩
    refine ⟨id.index.toNat - 1, here, ?_⟩
    have same := toNat_idAt_of_getElem? room here
    rw [Nat.sub_add_cancel set] at same
    exact congrArg NameId.mk (UInt32.toNat_inj.1 same)

theorem find?_ne_unset (room : pool.size < UInt32.size) (name : String) :
    pool.find? name ≠ some .unset :=
  fun found => nomatch (find?_eq_some_iff_text? room).1 found

/-- The numbers of all names in order are the numbers from one on. -/
theorem map_find?_names (room : pool.size < UInt32.size) :
    pool.names.map (fun name => (pool.find? name).map (·.index.toNat)) =
      (List.range' 1 pool.size).map some := by
  apply List.ext_getElem?
  intro position
  by_cases inside : position < pool.size
  · have here : pool.names[position]? = some pool.names[position] := List.getElem?_eq_getElem inside
    have number := find?_eq_some_iff.2 ⟨position, here, rfl⟩
    simp [here, number, toNat_idAt_of_getElem? room here, inside, Nat.add_comm]
  · have beyond : pool.names.length ≤ position := Nat.le_of_not_lt inside
    simp [size, beyond]

theorem isSome_text?_iff (pool : NamePool) (id : NameId) :
    (pool.text? id).isSome ↔ 1 ≤ id.index.toNat ∧ id.index.toNat ≤ pool.size := by
  simp only [Option.isSome_iff_exists, text?_eq_some_iff, List.getElem?_eq_some_iff]
  constructor
  · rintro ⟨name, set, inside, -⟩
    exact ⟨set, by unfold size; omega⟩
  · rintro ⟨set, le⟩
    exact ⟨_, set, by unfold size at le; omega, rfl⟩

/-! ## Inserting -/

theorem names_insert (pool : NamePool) (name : String) :
    (pool.insert name).names = if name ∈ pool.names then pool.names else pool.names ++ [name] := by
  unfold insert
  split <;> rfl

/-- The names of a pool are the distinct names that it was given, in order. -/
theorem names_foldl_insert (log : List String) :
    (log.foldl insert empty).names = log.eraseDups := by
  induction log using List.reverseRecOn with
  | nil => rfl
  | append_singleton log name ih =>
    rw [List.foldl_append, List.foldl_cons, List.foldl_nil, names_insert, ih,
      eraseDups_append_singleton]

theorem insert_of_mem (known : name ∈ pool.names) : pool.insert name = pool := dif_pos known

/-- A new name is given the next number, and no other name is given another one. -/
theorem find?_insert_of_not_mem (new : name ∉ pool.names) (other : String) :
    (pool.insert name).find? other =
      if other = name then some (idAt pool.size) else pool.find? other := by
  split
  · next same =>
    subst same
    exact find?_eq_some_iff.2 ⟨pool.size, by simp [names_insert, new, size], rfl⟩
  · next differs =>
    have last : [name].findIdx? (· == other) = none := by simp [Ne.symm differs]
    simp [find?, names_insert, new, List.idxOf?, List.findIdx?_append, last]

/-- The number for which 32 bits are one too few is the one that stands for no name. -/
theorem find?_insert_of_full (full : pool.size + 1 = UInt32.size) (new : name ∉ pool.names) :
    (pool.insert name).find? name = some .unset := by
  rw [find?_insert_of_not_mem new, if_pos rfl, idAt, full]
  rfl

end NamePool

/-! ## Two indexes -/

namespace IndexedPool

variable {pool : IndexedPool} {plain : NamePool} {name : String} {id : NameId}

theorem insert_of_known (known : pool.find? name = some id) : pool.insert name = (id, pool) := by
  simp [insert, known]

theorem insert_of_new (new : pool.find? name = none) :
    pool.insert name =
      (NamePool.idAt pool.size,
        ⟨pool.ids.insert name (NamePool.idAt pool.size), pool.names ++ [name]⟩) := by
  simp [insert, new, NamePool.idAt, size]

/-- The number that an insertion returns is the one found from then on. -/
theorem find?_insert_self (pool : IndexedPool) (name : String) :
    (pool.insert name).2.find? name = some (pool.insert name).1 := by
  cases found : pool.find? name with
  | some id => rw [insert_of_known found, found]
  | none =>
    rw [insert_of_new found]
    exact (OrderedMap.find?_insert ..).trans (if_pos rfl)

/-- The second index holds the names of the plain pool, and the first one the numbers that they
have there. -/
structure Mirrors (pool : IndexedPool) (plain : NamePool) : Prop where
  names : pool.names = plain.names
  find? : ∀ name, pool.find? name = plain.find? name

namespace Mirrors

theorem empty : Mirrors .empty .empty where
  names := rfl
  find? _ := rfl

theorem size (mirrors : Mirrors pool plain) : pool.size = plain.size :=
  congrArg List.length mirrors.names

theorem text? (mirrors : Mirrors pool plain) (id : NameId) : pool.text? id = plain.text? id := by
  rw [IndexedPool.text?, NamePool.text?, mirrors.names]

theorem mem_names_iff (mirrors : Mirrors pool plain) :
    name ∈ plain.names ↔ (pool.find? name).isSome := by
  rw [mirrors.find?, NamePool.isSome_find?_iff]

/-- Inserting a name keeps the pools alike, whatever numbers it takes. -/
theorem insert (mirrors : Mirrors pool plain) (name : String) :
    Mirrors (pool.insert name).2 (plain.insert name) := by
  cases found : pool.find? name with
  | some id =>
    have known : name ∈ plain.names := mirrors.mem_names_iff.2 (by simp [found])
    rw [insert_of_known found, NamePool.insert_of_mem known]
    exact mirrors
  | none =>
    have new : name ∉ plain.names := mirrors.mem_names_iff.not.2 (by simp [found])
    rw [insert_of_new found]
    refine ⟨?_, fun other => ?_⟩
    · rw [NamePool.names_insert, if_neg new, mirrors.names]
    · rw [NamePool.find?_insert_of_not_mem new, ← mirrors.size, ← mirrors.find?]
      exact OrderedMap.find?_insert ..

end Mirrors

end IndexedPool

end NameResolution
