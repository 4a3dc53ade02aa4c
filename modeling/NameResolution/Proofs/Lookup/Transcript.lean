import NameResolution.Proofs.Lookup.Recall

/-!
# Runs of queries

A run of queries starts with nothing remembered. Whatever it asks, and in whatever order, all its
answers are the answers without memory from one set of lineages, those known at its end.

## Main definitions

* `Hierarchy.memoryAfter` — what is remembered at the end of a run.
* `Hierarchy.transcript` — the queries of a run with their answers.

## Main statements

* `Hierarchy.eq_answer_of_mem_transcript` — the answers of a run.
* `Hierarchy.ask_repeated` — a query is answered as it was before, and what is remembered stays.
-/

namespace NameResolution

deriving instance DecidableEq for OrderedMap

deriving instance DecidableEq for ConstantTable

deriving instance DecidableEq for Answer

namespace Hierarchy

variable {h : Hierarchy} {queries : List Query} {query : Query} {answer : Answer}

/-- What is remembered after a run of queries. -/
def memoryAfter (h : Hierarchy) (queries : List Query) : Memory := ((h.askAll queries).run ∅).2

/-- The queries of a run, each with its answer. -/
def transcript (h : Hierarchy) (queries : List Query) : List (Query × Answer) :=
  queries.zip ((h.askAll queries).run ∅).1

theorem settles_askAll (queries : List Query) :
    h.Settles (h.askAll queries) fun m answers => answers = queries.map (h.answer (m.kin h)) := by
  unfold askAll
  induction queries with
  | nil => exact .pure fun _ _ => rfl
  | cons query queries ih =>
    rw [List.mapM_cons]
    refine (settles_ask query).bind fun answer => ih.map (answer :: ·) fun m answers later now => ?_
    rw [later, now, List.map_cons]

theorem coherent_memoryAfter (h : Hierarchy) (queries : List Query) :
    (h.memoryAfter queries).Coherent h :=
  (settles_askAll queries ∅ (Memory.coherent_empty h)).1

/-- The answers of a run are right in every later memory. -/
theorem eq_answer_of_growsTo {later : Memory} (asked : (query, answer) ∈ h.transcript queries)
    (coherent : later.Coherent h) (grows : (h.memoryAfter queries).GrowsTo later) :
    answer = h.answer (later.kin h) query := by
  have answers := (settles_askAll queries ∅ (Memory.coherent_empty h)).2.2 later coherent grows
  rw [transcript, answers, ← List.map_prod_left_eq_zip] at asked
  obtain ⟨_, _, same⟩ := List.mem_map.1 asked
  obtain ⟨rfl, rfl⟩ := Prod.mk.inj same
  rfl

theorem eq_answer_of_mem_transcript (asked : (query, answer) ∈ h.transcript queries) :
    answer = h.answer ((h.memoryAfter queries).kin h) query :=
  eq_answer_of_growsTo asked (h.coherent_memoryAfter queries) (.refl _)

/-- What a run tells of ancestors, at whatever point, is what its last memory knows. -/
theorem kin_of_mem_transcript {name : QualifiedName} {line? : Option (List QualifiedName)}
    (asked : (.ancestors name, .ancestors line?) ∈ h.transcript queries) :
    (h.memoryAfter queries).kin h name = line? :=
  (Answer.ancestors.inj (eq_answer_of_mem_transcript asked)).symm

/-- What was answered at some point of a run is answered again at its end. -/
theorem eq_ask_of_mem_transcript (asked : (query, answer) ∈ h.transcript queries) :
    answer = ((h.ask query).run (h.memoryAfter queries)).1 := by
  obtain ⟨coherent, grows, right⟩ := settles_ask query _ (h.coherent_memoryAfter queries)
  rw [eq_answer_of_growsTo asked coherent grows, right _ coherent (.refl _)]

/-- A query whose answer takes no ancestors is answered the same after any queries. -/
theorem ask_memoryAfter_eq (same : ∀ kin, h.answer kin query = answer) (queries : List Query) :
    ((h.ask query).run (h.memoryAfter queries)).1 = answer := by
  obtain ⟨coherent, -, right⟩ := settles_ask query _ (h.coherent_memoryAfter queries)
  rw [right _ coherent (.refl _), same]

/-! ## Repeated queries -/

theorem memoryAfter_append (h : Hierarchy) (earlier later : List Query) :
    h.memoryAfter (earlier ++ later) = ((h.askAll later).run (h.memoryAfter earlier)).2 := by
  rw [memoryAfter, askAll, List.mapM_append]
  rfl

theorem memoryAfter_append_cons (h : Hierarchy) (before : List Query) (query : Query)
    (between : List Query) :
    h.memoryAfter (before ++ query :: between) =
      ((h.askAll between).run ((h.ask query).run (h.memoryAfter before)).2).2 := by
  rw [memoryAfter_append, askAll, List.mapM_cons]
  rfl

/-- A query that comes back later in a run is answered as it was before, whatever is asked in
between, cyclic ancestries among it. What is remembered at some point of a run, be it a table, a
lineage, a listing or a type name, is remembered unchanged at every later point. -/
theorem ask_repeated (h : Hierarchy) (before between : List Query) (query : Query) :
    ((h.ask query).run (h.memoryAfter (before ++ query :: between))).1 =
        ((h.ask query).run (h.memoryAfter before)).1 ∧
      ∀ earlier later, (h.memoryAfter earlier).GrowsTo (h.memoryAfter (earlier ++ later)) := by
  refine ⟨?_, fun earlier later => ?_⟩
  · obtain ⟨coherent, -, right⟩ := settles_ask query _ (h.coherent_memoryAfter before)
    obtain ⟨-, grows, -⟩ := settles_askAll between _ coherent
    rw [← memoryAfter_append_cons] at grows
    obtain ⟨coherent', grows', right'⟩ :=
      settles_ask query _ (h.coherent_memoryAfter (before ++ query :: between))
    -- The lineages that the first answer was told from are still the ones known at the end.
    rw [right' _ coherent' (.refl _), right _ coherent' (grows.trans grows')]
  · rw [memoryAfter_append]
    exact (settles_askAll later _ (h.coherent_memoryAfter earlier)).2.1

end Hierarchy

end NameResolution
