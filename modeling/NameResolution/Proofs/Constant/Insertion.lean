import NameResolution.Proofs.Lookup.Tables
import NameResolution.Proofs.OrderedMap.Entries

/-!
# Inserting constants into a table

A table tells of the constants that were inserted into it: under each simple name stand those whose
last component it is, each declaration once and where it was first seen. All views of a table are
views of these candidates. Inserting a constant again changes nothing, and the order of insertion
decides no more than the order of names and of candidates, and which location a candidate has.

## Main definitions

* `Constant.signed` — the name and the type, which tell declarations apart.
* `ConstantTable.kept` — the constants of one simple name, each declaration once.
* `ConstantTable.Collects` — the views of a table that some constants were inserted into.

## Main statements

* `ConstantTable.collects_ofList` — what the views of a table show.
* `ConstantTable.insert_of_mem` — a constant that was inserted before is not inserted again.
* `ConstantTable.perm_signed_candidates` — the candidates in any order of insertion.
* `ConstantTable.insertions_observed` — all of this together.
-/

namespace NameResolution

/-- What tells one declaration of a constant from another one: its name and its type. -/
def Constant.signed (c : Constant) : QualifiedName × TypeExpr := (c.name, c.type)

/-- The tie that a name runs into. -/
def Resolution.conflict? : Resolution → Option Ambiguity
  | absent => none
  | found _ => none
  | ambiguous conflict => some conflict

theorem Resolution.conflict?_ofCandidates (simple : String) (candidates : List Constant) :
    (ofCandidates simple candidates).conflict? =
      if 1 < candidates.length then some ⟨simple, candidates⟩ else none := by
  match candidates with
  | [] => rfl
  | [c] => rfl
  | c :: d :: rest => simp [ofCandidates, conflict?]

namespace ConstantTable

variable {constants : List Constant} {c : Constant} {simple : String}

/-! ## Declarations once -/

/-- The constants of a list that have the simple name, each declaration at its first place. -/
def kept (constants : List Constant) (simple : String) : List Constant :=
  (constants.filter (·.name.last = simple)).eraseDupsBy fun c d => c.signed = d.signed

theorem sameDeclaration_eq (c d : Constant) :
    c.sameDeclaration d = decide (d.signed = c.signed) := by
  rw [Bool.eq_iff_iff, sameDeclaration_iff, decide_eq_true_iff, Constant.signed, Constant.signed,
    Prod.mk.injEq, eq_comm (a := c.name), eq_comm (a := c.type)]

/-- What was kept so far is held in reverse while repeated declarations are dropped. -/
theorem eraseDupsBy_loop_eq (constants reversed : List Constant) :
    List.eraseDupsBy.loop (fun c d => decide (c.signed = d.signed)) constants reversed =
      constants.foldl addCandidate reversed.reverse := by
  induction constants generalizing reversed with
  | nil => rfl
  | cons c constants ih =>
    have known : reversed.reverse.any (·.sameDeclaration c) =
        reversed.any fun d => decide (c.signed = d.signed) := by
      simp only [sameDeclaration_eq, List.any_reverse]
    rw [List.foldl_cons, addCandidate, known, List.eraseDupsBy.loop]
    cases reversed.any fun d => decide (c.signed = d.signed) with
    | true => exact ih reversed
    | false => exact (ih (c :: reversed)).trans (by simp)

theorem distinct_eq_eraseDupsBy (constants : List Constant) :
    distinct constants = constants.eraseDupsBy fun c d => c.signed = d.signed :=
  (eraseDupsBy_loop_eq constants []).symm

theorem candidates_eq_kept (constants : List Constant) (simple : String) :
    (ofList constants).candidates simple = kept constants simple := by
  rw [candidates_ofList, distinct_eq_eraseDupsBy, kept]

theorem nodup_signed_distinct (constants : List Constant) :
    ((distinct constants).map Constant.signed).Nodup := by
  refine List.pairwise_map.2 ((pairwise_distinct constants).imp fun differs same => differs ?_)
  exact Prod.mk.inj same

theorem mem_signed_distinct {signed : QualifiedName × TypeExpr} :
    signed ∈ (distinct constants).map Constant.signed ↔
      signed ∈ constants.map Constant.signed := by
  simp only [List.mem_map]
  constructor
  · rintro ⟨c, mem, rfl⟩
    exact ⟨c, distinct_subset constants mem, rfl⟩
  · rintro ⟨c, mem, rfl⟩
    obtain ⟨d, mem', name, type⟩ := exists_mem_distinct mem
    exact ⟨d, mem', Prod.ext name type⟩

/-! ## Views of a table -/

/-- A table is its names, each with its candidates. -/
theorem entries_eq_map_keys (table : ConstantTable) :
    table.entries.entries = table.keys.map fun simple => (simple, table.candidates simple) := by
  rw [keys, OrderedMap.keys, List.map_map]
  refine (List.map_id _).symm.trans (List.map_congr_left fun entry mem => ?_)
  have found := OrderedMap.find?_of_mem_entries mem
  simp [candidates, found]

theorem firsts_eq_filterMap (table : ConstantTable) :
    table.firsts = table.keys.filterMap fun simple => (table.get? simple).map (simple, ·) := by
  rw [firsts, entries_eq_map_keys, List.filterMap_map]
  rfl

theorem ambiguities_eq_filterMap (table : ConstantTable) :
    table.ambiguities = table.keys.filterMap fun simple => (table.lookup simple).conflict? := by
  rw [ambiguities, entries_eq_map_keys, List.filter_map, List.map_map, ← List.filterMap_eq_map,
    List.filterMap_filter]
  refine List.filterMap_congr fun simple _ => ?_
  rw [lookup, Resolution.conflict?_ofCandidates]
  simp

/-- A constant that was inserted has its declaration among the candidates of its name. -/
theorem exists_mem_candidates (mem : c ∈ constants) :
    ∃ d ∈ (ofList constants).candidates c.name.last, d.sameDeclaration c := by
  have named : c ∈ constants.filter (·.name.last = c.name.last) := by simp [mem]
  obtain ⟨d, mem', same⟩ := exists_mem_distinct named
  rw [candidates_ofList]
  exact ⟨d, mem', sameDeclaration_iff.2 same⟩

theorem candidates_ne_nil (listed : simple ∈ (ofList constants).keys) :
    (ofList constants).candidates simple ≠ [] := by
  rw [keys_ofList, List.mem_eraseDups] at listed
  obtain ⟨c, mem, rfl⟩ := List.mem_map.1 listed
  obtain ⟨d, mem', -⟩ := exists_mem_candidates mem
  exact List.ne_nil_of_mem mem'

theorem keys_firsts_ofList (constants : List Constant) :
    (ofList constants).firsts.map Prod.fst = (ofList constants).keys := by
  rw [firsts_eq_filterMap, List.map_filterMap]
  refine (List.filterMap_congr fun simple listed => ?_).trans List.filterMap_some
  obtain ⟨c, rest, candidates⟩ := List.exists_cons_of_ne_nil (candidates_ne_nil listed)
  simp [get?, candidates]

/-- The views of a table that exactly these constants were inserted into, in this order. -/
structure Collects (table : ConstantTable) (constants : List Constant) : Prop where
  candidates : ∀ simple, table.candidates simple = kept constants simple
  absent : ∀ simple, table.lookup simple = .absent ↔ kept constants simple = []
  found : ∀ simple c, table.lookup simple = .found c ↔ kept constants simple = [c]
  ambiguous : ∀ simple conflict, table.lookup simple = .ambiguous conflict ↔
    conflict = ⟨simple, kept constants simple⟩ ∧ 2 ≤ (kept constants simple).length
  get? : ∀ simple, table.get? simple = (kept constants simple).head?
  /-- Every name stands where it was first inserted. -/
  keys : table.keys = (constants.map (·.name.last)).eraseDups
  firsts : table.firsts =
    table.keys.filterMap fun simple => (kept constants simple).head?.map (simple, ·)
  keys_firsts : table.firsts.map Prod.fst = table.keys
  size : table.size = table.keys.length
  /-- The ties are those of the names whose lookup fails. -/
  ambiguities : table.ambiguities =
    table.keys.filterMap fun simple => (table.lookup simple).conflict?

theorem collects_ofList (constants : List Constant) : (ofList constants).Collects constants where
  candidates := candidates_eq_kept constants
  absent simple := by
    rw [← candidates_eq_kept]
    exact Resolution.ofCandidates_eq_absent_iff
  found simple c := by
    rw [← candidates_eq_kept]
    exact Resolution.ofCandidates_eq_found_iff
  ambiguous simple conflict := by
    rw [← candidates_eq_kept]
    exact Resolution.ofCandidates_eq_ambiguous_iff
  get? simple := by
    rw [← candidates_eq_kept]
    rfl
  keys := keys_ofList constants
  firsts := by
    simp only [← candidates_eq_kept]
    exact firsts_eq_filterMap _
  keys_firsts := keys_firsts_ofList constants
  size := (OrderedMap.length_keys _).symm
  ambiguities := ambiguities_eq_filterMap _

/-! ## Insertions repeated and reordered -/

/-- A constant that was inserted before changes nothing when it is inserted again. -/
theorem insert_of_mem (mem : c ∈ constants) : (ofList constants).insert c = ofList constants := by
  have listed : c.name.last ∈ (ofList constants).entries.keys := by
    change c.name.last ∈ (ofList constants).keys
    rw [keys_ofList, List.mem_eraseDups]
    exact List.mem_map_of_mem mem
  obtain ⟨stored, found⟩ := Option.isSome_iff_exists.1 ((OrderedMap.mem_keys_iff _ _).1 listed)
  have known : ∃ d ∈ stored, d.sameDeclaration c := by
    simpa [candidates, found] using exists_mem_candidates mem
  have keeps : addCandidate stored c = stored := if_pos (List.any_eq_true.2 known)
  rw [insert]
  exact congrArg mk (OrderedMap.eq_of_entries_eq (OrderedMap.upsertEntries_eq_self keeps found))

theorem ofList_append_of_subset {again : List Constant} (repeated : again ⊆ constants) :
    ofList (constants ++ again) = ofList constants := by
  induction again using List.reverseRecOn with
  | nil => rw [List.append_nil]
  | append_singleton again c ih =>
    obtain ⟨earlier, last⟩ := List.append_subset.1 repeated
    have mem : c ∈ constants ++ again := List.mem_append_left _ (last (List.mem_singleton_self c))
    have step : ofList (constants ++ again ++ [c]) = (ofList (constants ++ again)).insert c := by
      simp [ofList]
    rw [← List.append_assoc, step, insert_of_mem mem, ih earlier]

/-- The order of insertion does not decide which declarations a name has. -/
theorem perm_signed_candidates {order : List Constant} (reordered : order.Perm constants)
    (simple : String) :
    (((ofList order).candidates simple).map Constant.signed).Perm
      (((ofList constants).candidates simple).map Constant.signed) := by
  rw [candidates_ofList, candidates_ofList]
  refine (List.perm_ext_iff_of_nodup (nodup_signed_distinct _) (nodup_signed_distinct _)).2 ?_
  intro signed
  rw [mem_signed_distinct, mem_signed_distinct]
  exact ((reordered.filter _).map _).mem_iff

/-- After any run of insertions, each view of the table shows the declarations that were inserted,
each at its first place. Whatever is inserted again leaves the same table. In another order the same
insertions give each name the same declarations, and the same lookups run into a tie. -/
theorem insertions_observed (constants : List Constant) :
    (ofList constants).Collects constants ∧
      (∀ again, again ⊆ constants → ofList (constants ++ again) = ofList constants) ∧
      ∀ order, order.Perm constants → ∀ simple,
        (((ofList order).candidates simple).map Constant.signed).Perm
          (((ofList constants).candidates simple).map Constant.signed) ∧
        (((ofList order).lookup simple).conflict?.isSome ↔
          ((ofList constants).lookup simple).conflict?.isSome) := by
  refine ⟨collects_ofList constants, fun again => ofList_append_of_subset,
    fun order reordered simple => ?_⟩
  have same := perm_signed_candidates reordered simple
  have count := same.length_eq
  rw [List.length_map, List.length_map] at count
  refine ⟨same, ?_⟩
  rw [lookup, lookup, Resolution.conflict?_ofCandidates, Resolution.conflict?_ofCandidates, count]
  split <;> simp

/-- Constants of two namespaces share a simple name, and one of them comes back with another
location. The first location stays, so that it depends on the order, and the tie does not. -/
theorem insertions_observed_shared :
    let a := Namespace.root.member "A"
    let x (module : String) (offset : UInt32) : Constant :=
      ⟨(Namespace.root.member module).toNamespace.member "X", .singleton a,
        some ⟨⟨0⟩, offset, offset, UInt32.le_refl _⟩⟩
    let y : Constant := ⟨a.toNamespace.member "Y", .singleton a, none⟩
    let constants := [x "A" 1, y, x "B" 2, x "A" 3]
    let order := [x "A" 3, x "B" 2, y, x "A" 1]
    (ofList constants).candidates "X" = [x "A" 1, x "B" 2] ∧
      (ofList constants).keys = ["X", "Y"] ∧
      ofList (constants ++ [x "A" 3, y]) = ofList constants ∧ order.Perm constants ∧
      (ofList order).get? "X" = some (x "A" 3) ∧ ((ofList order).lookup "X").conflict?.isSome := by
  intro a x y constants order
  obtain ⟨collects, repeated, reordered⟩ := insertions_observed constants
  obtain ⟨collects', -, -⟩ := insertions_observed order
  have turned : order.Perm constants := by decide
  have tied : ((ofList constants).lookup "X").conflict?.isSome := by decide +kernel
  exact ⟨(collects.candidates "X").trans (by decide +kernel),
    collects.keys.trans (by decide +kernel),
    repeated _ (by simp [constants]), turned, (collects'.get? "X").trans (by decide +kernel),
    (reordered order turned "X").2.2 tied⟩

end ConstantTable

end NameResolution
