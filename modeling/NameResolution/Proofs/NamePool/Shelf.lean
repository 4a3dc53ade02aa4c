import NameResolution.Proofs.NamePool.Numbers

/-!
# Pools on a shelf

What is done to several pools concerns each of them alone. A pool is what the names inserted into it
have made of it, those inserted into the pool that it was copied from among them, and nothing that
is done elsewhere changes it.

## Main definitions

* `PoolOp.addressed` — the names inserted at one place.
* `PoolOp.logs` — the names that each pool of a shelf was given.
* `IndexedPool.Faithful` — the numbers of a pool and its answers, told from those names.

## Main statements

* `PoolOp.map_run` — pools of two forms that agree on each insertion agree on the whole shelf.
* `PoolOp.getElem?_run` — a pool changes by what is inserted into it alone.
* `IndexedPool.shelf_faithful` — the pools of a shelf, and their copies.
-/

namespace NameResolution

namespace PoolOp

variable {π ρ : Type} {fresh : π} {add : π → String → π} {shelf : List π} {place : Nat}

/-- The names inserted at one place, in order. -/
def addressed (place : Nat) : List PoolOp → List String :=
  List.filterMap fun
    | insert there name => if there = place then some name else none
    | create | copy _ => none

/-- The names that each pool of a shelf was given. A copied pool has those of its original. -/
def logs (ops : List PoolOp) : List (List String) := run [] (fun log name => log ++ [name]) [] ops

/-! ## Pools of two forms -/

theorem map_apply {f : π → ρ} {add' : ρ → String → ρ}
    (same : ∀ p name, f (add p name) = add' (f p) name) (shelf : List π) (op : PoolOp) :
    (apply fresh add shelf op).map f = apply (f fresh) add' (shelf.map f) op := by
  cases op with
  | create => simp [apply]
  | insert place name =>
    apply List.ext_getElem?
    intro other
    simp only [apply, List.getElem?_map, List.getElem?_modify]
    cases shelf[other]? with
    | none => rfl
    | some p => by_cases here : place = other <;> simp [here, same]
  | copy place => simp [apply, Option.toList_map]

/-- Pools of two forms that agree on each insertion agree on the whole shelf. -/
theorem map_run {f : π → ρ} {add' : ρ → String → ρ}
    (same : ∀ p name, f (add p name) = add' (f p) name) (shelf : List π) (ops : List PoolOp) :
    (run fresh add shelf ops).map f = run (f fresh) add' (shelf.map f) ops :=
  (List.foldl_hom (List.map f) fun shelf op => (map_apply same shelf op).symm).symm

/-! ## One pool among others -/

theorem getElem?_apply {p : π} (held : shelf[place]? = some p) (op : PoolOp) :
    (apply fresh add shelf op)[place]? = some ((addressed place [op]).foldl add p) := by
  have inside : place < shelf.length := (List.getElem?_eq_some_iff.1 held).1
  cases op with
  | create => simp [apply, addressed, List.getElem?_append_left inside, held]
  | insert there name =>
    by_cases here : there = place <;> simp [apply, addressed, held, here]
  | copy there => simp [apply, addressed, List.getElem?_append_left inside, held]

/-- A pool changes by what is inserted into it alone. -/
theorem getElem?_run {p : π} (held : shelf[place]? = some p) (ops : List PoolOp) :
    (run fresh add shelf ops)[place]? = some ((addressed place ops).foldl add p) := by
  induction ops generalizing shelf p with
  | nil => exact held
  | cons op ops ih =>
    have split : addressed place (op :: ops) = addressed place [op] ++ addressed place ops :=
      List.filterMap_append (l := [op]) ..
    rw [split, List.foldl_append]
    exact ih (getElem?_apply held op)

theorem run_append (shelf : List π) (ops later : List PoolOp) :
    run fresh add shelf (ops ++ later) = run fresh add (run fresh add shelf ops) later :=
  List.foldl_append

end PoolOp

namespace IndexedPool

/-- The pool after seeing some names in order. -/
def insertAll (pool : IndexedPool) (names : List String) : IndexedPool :=
  names.foldl (fun pool name => (pool.insert name).2) pool

/-- The pool numbers the names of a log in the order of their first insertion and reads the numbers
back, and it goes on doing so. -/
structure Faithful (pool : IndexedPool) (log : List String) : Prop where
  /-- The names have numbers from one on, up to the size of the pool. -/
  numbered : log.eraseDups.map (fun name => (pool.find? name).map (·.index.toNat)) =
    (List.range' 1 pool.size).map some
  seen : ∀ name, (pool.find? name).isSome ↔ name ∈ log
  numbers : ∀ id, (pool.text? id).isSome ↔ 1 ≤ id.index.toNat ∧ id.index.toNat ≤ pool.size
  inverse : ∀ name id, pool.find? name = some id ↔ pool.text? id = some name
  /-- Inserting a known name returns its number and changes nothing. -/
  known : ∀ name id, pool.find? name = some id → pool.insert name = (id, pool)
  /-- Inserting a new name changes no number and no text that is there. -/
  kept : ∀ name, pool.find? name = none →
    (∀ other id, pool.find? other = some id → (pool.insert name).2.find? other = some id) ∧
    ∀ id text, pool.text? id = some text → (pool.insert name).2.text? id = some text
  /-- Inserting returns the number that is found from then on, for a new name the next one. -/
  returned : ∀ name, (pool.insert name).2.find? name = some (pool.insert name).1 ∧
    (pool.find? name = none → (pool.insert name).2.size < UInt32.size →
      (pool.insert name).1.index.toNat = pool.size + 1)
  unset : pool.text? .unset = none ∧ ∀ name, pool.find? name ≠ some .unset ∧
    ((pool.insert name).2.size < UInt32.size → (pool.insert name).1 ≠ .unset)

variable {pool : IndexedPool} {plain : NamePool} {log : List String} {name : String}

theorem size_insert_of_new (new : pool.find? name = none) :
    (pool.insert name).2.size = pool.size + 1 := by
  rw [insert_of_new new]
  exact List.length_append

/-- A new name takes no other name's number and no number's text. -/
theorem insert_keeps (new : pool.find? name = none) :
    (∀ other id, pool.find? other = some id → (pool.insert name).2.find? other = some id) ∧
    ∀ id text, pool.text? id = some text → (pool.insert name).2.text? id = some text := by
  rw [insert_of_new new]
  refine ⟨fun other id found => ?_, fun id text read => ?_⟩
  · have differs : other ≠ name := by
      rintro rfl
      simp [new] at found
    exact (OrderedMap.find?_insert ..).trans ((if_neg differs).trans found)
  · unfold text? at read ⊢
    split at read
    · cases read
    · next set =>
      have inside := (List.getElem?_eq_some_iff.1 read).1
      rw [if_neg set, List.getElem?_append_left inside, read]

/-- A pool that mirrors the distinct names of a log is faithful to it as long as numbers fit. -/
theorem Mirrors.faithful (mirrors : Mirrors pool plain) (names : plain.names = log.eraseDups)
    (room : pool.size < UInt32.size) : pool.Faithful log where
  numbered := by
    have room : plain.size < UInt32.size := mirrors.size ▸ room
    simpa [← names, mirrors.find?, mirrors.size] using NamePool.map_find?_names room
  seen name := by rw [← mirrors.mem_names_iff, names, List.mem_eraseDups]
  numbers id := by rw [mirrors.text?, mirrors.size, NamePool.isSome_text?_iff]
  inverse name id := by
    rw [mirrors.find?, mirrors.text?, NamePool.find?_eq_some_iff_text? (mirrors.size ▸ room)]
  known name id := insert_of_known
  kept name := insert_keeps
  returned name := by
    refine ⟨pool.find?_insert_self name, fun new fits => ?_⟩
    rw [size_insert_of_new new] at fits
    rw [insert_of_new new, NamePool.toNat_idAt fits]
  unset := by
    refine ⟨rfl, fun name => ⟨?_, fun fits same => ?_⟩⟩
    · rw [mirrors.find?]
      exact NamePool.find?_ne_unset (mirrors.size ▸ room) name
    · have after := mirrors.insert name
      have found := pool.find?_insert_self name
      rw [after.find?, same] at found
      exact NamePool.find?_ne_unset (after.size ▸ fits) name found

/-- A pool that was given some names holds the distinct ones, as a plain pool does. -/
theorem mirrors_insertAll (log : List String) :
    Mirrors (insertAll .empty log) (log.foldl NamePool.insert .empty) := by
  induction log using List.reverseRecOn with
  | nil => exact .empty
  | append_singleton log name ih =>
    rw [insertAll, List.foldl_append, List.foldl_append]
    exact ih.insert name

/-- The pools of a shelf are what the names given to them make of empty ones. -/
theorem map_insertAll_logs (ops : List PoolOp) :
    (PoolOp.logs ops).map (insertAll .empty) = shelf ops :=
  PoolOp.map_run (fun _ _ => List.foldl_append) [] ops

/-- A copied pool stands at the end of the shelf, and it and its original go on from what the
original was, each by the names that are inserted into it. -/
theorem shelf_copied {ops : List PoolOp} {place : Nat} (held : (shelf ops)[place]? = some pool)
    (later : List PoolOp) :
    let copied := shelf (ops ++ .copy place :: later)
    copied[(shelf ops).length]? =
        some (pool.insertAll (PoolOp.addressed (shelf ops).length later)) ∧
      copied[place]? = some (pool.insertAll (PoolOp.addressed place later)) := by
  have inside : place < (shelf ops).length := (List.getElem?_eq_some_iff.1 held).1
  have copied : shelf (ops ++ .copy place :: later) =
      PoolOp.run .empty (fun pool name => (pool.insert name).2) (shelf ops ++ [pool]) later := by
    rw [shelf, PoolOp.run_append]
    change PoolOp.run _ _ (shelf ops ++ (shelf ops)[place]?.toList) later = _
    rw [held, Option.toList_some]
  simp only [copied]
  refine ⟨PoolOp.getElem?_run ?_ later, PoolOp.getElem?_run ?_ later⟩
  · exact List.getElem?_concat_length
  · rw [List.getElem?_append_left inside, held]

/-- Each pool on a shelf has the names that it was given. As long as fewer than `2 ^ 32` of them are
distinct, it numbers them from one up in the order of their first insertion, numbers and names are
inverse to each other, further insertions leave them so, and the unset number is never used. A pool
and its copy go on from the same answers, each by the names that are inserted into it alone. -/
theorem shelf_faithful (ops : List PoolOp) {place : Nat} {pool : IndexedPool}
    (held : (shelf ops)[place]? = some pool) :
    (∃ log, (PoolOp.logs ops)[place]? = some log ∧ pool.size = log.eraseDups.length ∧
      pool.Mirrors (log.foldl NamePool.insert .empty) ∧
      (log.eraseDups.length < UInt32.size → pool.Faithful log)) ∧
    ∀ later,
      let copied := shelf (ops ++ .copy place :: later)
      copied[(shelf ops).length]? =
          some (pool.insertAll (PoolOp.addressed (shelf ops).length later)) ∧
        copied[place]? = some (pool.insertAll (PoolOp.addressed place later)) := by
  refine ⟨?_, shelf_copied held⟩
  rw [← map_insertAll_logs, List.getElem?_map, Option.map_eq_some_iff] at held
  obtain ⟨log, logged, rfl⟩ := held
  have mirrors := mirrors_insertAll log
  have names := NamePool.names_foldl_insert log
  have size : (insertAll .empty log).size = log.eraseDups.length :=
    (congrArg List.length mirrors.names).trans (congrArg List.length names)
  exact ⟨log, logged, size, mirrors, fun room => mirrors.faithful names (size ▸ room)⟩

/-- A pool with a repeated name that is copied before it goes another way than its copy. -/
theorem shelf_faithful_copied :
    let ops : List PoolOp := [.create, .insert 0 "A", .insert 0 "B", .insert 0 "A"]
    let pool : IndexedPool := ⟨⟨[("A", ⟨1⟩), ("B", ⟨2⟩)], by decide⟩, ["A", "B"]⟩
    let copied := shelf (ops ++ .copy 0 :: [.insert 1 "C", .insert 0 "D"])
    (shelf ops)[0]? = some pool ∧ pool.Faithful ["A", "B", "A"] ∧
      copied[1]? = some (pool.insert "C").2 ∧ copied[0]? = some (pool.insert "D").2 := by
  intro ops pool copied
  have held : (shelf ops)[0]? = some pool := rfl
  obtain ⟨⟨log, logged, -, -, faithful⟩, both⟩ := shelf_faithful ops held
  obtain rfl : ["A", "B", "A"] = log := Option.some.inj logged
  exact ⟨held, faithful (by decide), both [.insert 1 "C", .insert 0 "D"]⟩

end IndexedPool

end NameResolution
