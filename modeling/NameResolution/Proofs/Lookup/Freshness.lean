import NameResolution.Proofs.Ancestry.Acyclic
import NameResolution.Proofs.Lookup.Transcript

/-!
# Answers that do not depend on the past

With cyclic ancestry, what is remembered can depend on what was asked first. A query that consults
no ancestry that runs into a cycle is answered as by a fresh memory, whatever cyclic ancestries
were consulted before it.

## Main definitions

* `Hierarchy.descent` — the lists of ancestors by plain recursion.

## Main statements

* `Hierarchy.answer_fresh_of_acyclic` — past queries do not show in the answer.
-/

namespace NameResolution

namespace Hierarchy

variable {h : Hierarchy} {queries : List Query} {query : Query} {answer : Answer} {m : Memory}

/-- The lists of ancestors by plain recursion. -/
def descent (h : Hierarchy) : Kinship := fun name => (h.environment.normalize? name).map h.line

/-- What the name stands for, if anything, runs into no cycle. -/
def Acyclic (h : Hierarchy) (name : QualifiedName) : Prop :=
  ∀ target, h.environment.normalize? name = some target → ¬h.ReachesCycle target

theorem kin_eq_descent {name : QualifiedName} (coherent : m.Coherent h) (knows : m.Knows h name)
    (acyclic : h.Acyclic name) : m.kin h name = h.descent name := by
  unfold Memory.kin descent
  cases leads : h.environment.normalize? name with
  | none => rfl
  | some target =>
    obtain ⟨line, known⟩ := Option.isSome_iff_exists.1 (knows target leads)
    have true_line := coherent.lineages.truthful target line known (acyclic target leads)
    simp [known, true_line]

/-- Every memory grows to one that knows the ancestors of given names. -/
theorem exists_knows (names : List QualifiedName) (coherent : m.Coherent h) :
    ∃ later, later.Coherent h ∧ m.GrowsTo later ∧ ∀ name ∈ names, later.Knows h name := by
  induction names generalizing m with
  | nil => exact ⟨m, coherent, .refl m, nofun⟩
  | cons name names ih =>
    obtain ⟨coherent', grows', recalled⟩ := settles_recallAncestors? name m coherent
    obtain ⟨later, coherent_later, grows_later, knows⟩ := ih coherent'
    refine ⟨later, coherent_later, grows'.trans grows_later, List.forall_mem_cons.2 ⟨?_, knows⟩⟩
    exact (recalled later coherent_later grows_later).1

/-- An answer that is right in all later memories is the answer by plain recursion. -/
theorem eq_answer_descent (coherent : m.Coherent h)
    (acyclic : ∀ name ∈ query.consults h.builtins, h.Acyclic name)
    (right : ∀ later, later.Coherent h → m.GrowsTo later →
      answer = h.answer (later.kin h) query) : answer = h.answer h.descent query := by
  obtain ⟨later, coherent_later, grows, knows⟩ := exists_knows (query.consults h.builtins) coherent
  rw [right later coherent_later grows]
  apply answer_congr
  intro name mem
  exact kin_eq_descent coherent_later (knows name mem) (acyclic name mem)

/-- A query that consults no cyclic ancestry is answered, after whatever other queries, as with
nothing remembered. In particular the ancestors of a name are those of the plain recursion. -/
theorem answer_fresh_of_acyclic (h : Hierarchy) (queries : List Query) {query : Query}
    {answer : Answer} (asked : (query, answer) ∈ h.transcript queries)
    (acyclic : ∀ name ∈ query.consults h.builtins, ∀ target,
      h.environment.normalize? name = some target → ¬h.ReachesCycle target) :
    answer = ((h.ask query).run ∅).1 ∧
      (∀ name, query = .ancestors name →
        answer = .ancestors ((h.environment.normalize? name).map h.line)) ∧
      ∀ name entry, h.environment.module? name = some entry → ¬h.ReachesCycle name →
        h.line name =
          assemble name ((h.heritage entry).map fun link => (link.role, h.line link.target)) := by
  -- Both answers stay right once all that the query consults is known, and there it is true.
  have past : answer = h.answer h.descent query :=
    eq_answer_descent (h.coherent_memoryAfter queries) acyclic fun later coherent grows =>
      eq_answer_of_growsTo asked coherent grows
  obtain ⟨coherent, -, right⟩ := settles_ask query ∅ (Memory.coherent_empty h)
  have fresh : ((h.ask query).run ∅).1 = h.answer h.descent query :=
    eq_answer_descent coherent acyclic right
  refine ⟨past.trans fresh.symm, ?_, fun name entry declared => line_eq_assemble declared⟩
  rintro name rfl
  exact past

/-- A cycle that was consulted before does not show. -/
theorem answer_fresh_of_acyclic_entangled :
    let b := Namespace.root.member "B"
    let c := Namespace.root.member "C"
    let m := Namespace.root.member "M"
    let h : Hierarchy := ⟨.entangled, .standard⟩
    h.ReachesCycle b ∧ ¬h.ReachesCycle c ∧
      h.transcript [.ancestors b, .ancestors c] =
        [(.ancestors b, .ancestors (some [b, ⟨.root, "A"⟩])),
          (.ancestors c, .ancestors (some [c, m]))] ∧
      ((h.ask (.ancestors c)).run ∅).1 = .ancestors (some [c, m]) ∧ h.line c = [c, m] := by
  intro b c m h
  have cyclic : h.ReachesCycle b := by
    have up : h.Edge b ⟨.root, "A"⟩ := edge_iff_mem_bases.2 (by decide +kernel)
    have down : h.Edge ⟨.root, "A"⟩ b := edge_iff_mem_bases.2 (by decide +kernel)
    exact ⟨b, .refl, .tail (.single up) down⟩
  have module_acyclic : ¬h.ReachesCycle m := by
    have none_below : h.bases m = [] := by decide +kernel
    apply not_reachesCycle
    intro target edge
    simp [edge_iff_mem_bases, none_below] at edge
  have acyclic : ¬h.ReachesCycle c := by
    have one_below : h.bases c = [m] := by decide +kernel
    apply not_reachesCycle
    intro target edge
    rw [edge_iff_mem_bases, one_below, List.mem_singleton] at edge
    exact edge ▸ module_acyclic
  have run : h.transcript [.ancestors b, .ancestors c] =
      [(.ancestors b, .ancestors (some [b, ⟨.root, "A"⟩])),
        (.ancestors c, .ancestors (some [c, m]))] := by
    decide +kernel
  have itself : h.environment.normalize? c = some c := by decide +kernel
  have asked : (.ancestors c, .ancestors (some [c, m])) ∈
      h.transcript [.ancestors b, .ancestors c] := by
    rw [run]
    exact .tail _ (.head _)
  obtain ⟨fresh, line, -⟩ := answer_fresh_of_acyclic h _ asked fun name consulted target leads => by
    obtain rfl := List.mem_singleton.1 consulted
    obtain rfl := Option.some.inj (itself.symm.trans leads)
    exact acyclic
  refine ⟨cyclic, acyclic, run, fresh.symm, ?_⟩
  simpa [itself] using (line c rfl).symm

end Hierarchy

end NameResolution
