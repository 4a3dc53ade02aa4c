import Mathlib.Logic.Relation
import NameResolution.Proofs.Ancestry.Descent

/-!
# Lineages without cycles

Where the ancestry of a class or module is free of cycles, its lineage is given by a plain
recursion that remembers nothing and cuts nothing, and a remembered lineage is that one, whatever
cyclic ancestries were worked out before it.

## Main definitions

* `Hierarchy.Edge` — one class or module inherits from another or mixes it in.
* `Hierarchy.ReachesCycle` — some chain of edges runs into a cycle.
* `Hierarchy.line` — the lineage by plain recursion.

## Main statements

* `Hierarchy.line_eq_assemble` — the recursion, where there is no cycle.
* `Hierarchy.Grown.truthful` — remembered lineages are the lineages of the plain recursion.
-/

namespace NameResolution

namespace Hierarchy

open Relation

variable {h : Hierarchy} {unvisited : List QualifiedName} {name target : QualifiedName}
  {known : Lineages}

/-! ## The graph -/

/-- What a class or module stands on: the class or module that its superclass, stated or implied,
stands for, and those that its mixins stand for. -/
inductive Edge (h : Hierarchy) (name : QualifiedName) : QualifiedName → Prop
  | superclass {entry : ModuleEntry} {superclass target : QualifiedName}
      (declared : h.environment.module? name = some entry)
      (inherits : h.superclass? entry = some superclass)
      (leads : h.environment.normalize? superclass = some target) : Edge h name target
  | mixin {entry : ModuleEntry} {mixin : Mixin} {target : QualifiedName}
      (declared : h.environment.module? name = some entry) (mixes : mixin ∈ entry.mixins)
      (leads : h.environment.normalize? mixin.moduleName = some target) : Edge h name target

/-- Some chain of edges from the class or module runs into a cycle. -/
def ReachesCycle (h : Hierarchy) (name : QualifiedName) : Prop :=
  ∃ other, ReflTransGen h.Edge name other ∧ TransGen h.Edge other other

theorem ReachesCycle.of_edge (edge : h.Edge name target) (cyclic : h.ReachesCycle target) :
    h.ReachesCycle name := by
  obtain ⟨other, reached, cycle⟩ := cyclic
  exact ⟨other, .head edge reached, cycle⟩

theorem edge_of_mem_heritage {entry : ModuleEntry} {link : Link}
    (declared : h.environment.module? name = some entry) (mem : link ∈ h.heritage entry) :
    h.Edge name link.target := by
  cases mem_heritage_iff.1 mem with
  | superclass inherits leads => exact .superclass declared inherits leads
  | mixin mixes leads => exact .mixin declared mixes leads

/-- A class or module that only stands on acyclic ones is acyclic itself. -/
theorem not_reachesCycle (acyclic : ∀ target, h.Edge name target → ¬h.ReachesCycle target) :
    ¬h.ReachesCycle name := by
  rintro ⟨other, reached, cycle⟩
  rcases ReflTransGen.cases_head reached with rfl | ⟨target, edge, reached⟩
  · obtain ⟨target, edge, back⟩ := TransGen.head'_iff.1 cycle
    exact acyclic target edge ⟨target, .refl, .tail' back edge⟩
  · exact acyclic target edge ⟨other, reached, cycle⟩

/-- The targets of all edges from a class or module. -/
def bases (h : Hierarchy) (name : QualifiedName) : List QualifiedName :=
  ((h.environment.module? name).toList.flatMap h.heritage).map Link.target

theorem edge_iff_mem_bases : h.Edge name target ↔ target ∈ h.bases name := by
  simp only [bases, List.mem_map, List.mem_flatMap, Option.mem_toList]
  constructor
  · intro edge
    cases edge with
    | superclass declared inherits leads =>
      exact ⟨_, ⟨_, declared, mem_heritage_iff.2 (.superclass inherits leads)⟩, rfl⟩
    | mixin declared mixes leads =>
      exact ⟨_, ⟨_, declared, mem_heritage_iff.2 (.mixin mixes leads)⟩, rfl⟩
  · rintro ⟨link, ⟨entry, declared, mem⟩, rfl⟩
    exact edge_of_mem_heritage declared mem

section Rank

variable (rank : QualifiedName → Nat)
  (lower : ∀ other ∈ h.environment.modules.keys, rank other ≤ rank name →
    ∀ target ∈ h.bases other, rank target < rank other)

include lower

theorem rank_lt_of_edge {other : QualifiedName} (low : rank other ≤ rank name)
    (edge : h.Edge other target) : rank target < rank other := by
  have declared : (h.environment.module? other).isSome := by
    cases edge with
    | superclass declared _ _ => simp [declared]
    | mixin declared _ _ => simp [declared]
  exact lower other ((OrderedMap.mem_keys_iff _ _).2 declared) low target
    (edge_iff_mem_bases.1 edge)

/-- Nothing of a higher rank is reached when all edges from the own rank downwards lead to a lower
rank. -/
theorem rank_le_of_reaches {other : QualifiedName} (reached : ReflTransGen h.Edge name other) :
    rank other ≤ rank name := by
  induction reached with
  | refl => exact Nat.le_refl _
  | tail _ edge ih => exact Nat.le_trans (Nat.le_of_lt (rank_lt_of_edge rank lower ih edge)) ih

/-- A class or module runs into no cycle when all edges from its own rank downwards lead to a lower
rank. -/
theorem not_reachesCycle_of_rank_le : ¬h.ReachesCycle name := by
  rintro ⟨other, reached, cycle⟩
  have low := rank_le_of_reaches rank lower reached
  have sinks : ∀ target, TransGen h.Edge other target → rank target < rank other := by
    intro target reached
    induction reached with
    | single edge => exact rank_lt_of_edge rank lower low edge
    | tail _ edge ih =>
      exact Nat.lt_trans (rank_lt_of_edge rank lower (Nat.le_trans (Nat.le_of_lt ih) low) edge) ih
  exact Nat.lt_irrefl _ (sinks other cycle)

end Rank

/-- A hierarchy whose edges all lead to a lower rank has no cycle. -/
theorem not_reachesCycle_of_rank (rank : QualifiedName → Nat)
    (lower : ∀ name ∈ h.environment.modules.keys, ∀ target ∈ h.bases name,
      rank target < rank name) : ¬h.ReachesCycle name :=
  not_reachesCycle_of_rank_le rank fun other mem _ => lower other mem

/-! ## The plain recursion -/

/-- The lineage of a class or module by plain recursion, without memory. Only the classes and
modules in `unvisited` are entered, so that the recursion ends. -/
def lineWithin (h : Hierarchy) (unvisited : List QualifiedName) (name : QualifiedName) :
    List QualifiedName :=
  match h.environment.module? name with
  | none => []
  | some entry =>
    if _h : name ∈ unvisited then
      assemble name ((h.heritage entry).map fun link =>
        (link.role, h.lineWithin (unvisited.erase name) link.target))
    else []
termination_by unvisited.length
decreasing_by
  have := List.length_pos_of_mem _h
  rw [List.length_erase_of_mem _h]
  omega

/-- The lineage of a class or module by plain recursion. -/
def line (h : Hierarchy) (name : QualifiedName) : List QualifiedName :=
  h.lineWithin h.environment.modules.keys name

theorem lineWithin_eq_assemble {entry : ModuleEntry}
    (declared : h.environment.module? name = some entry) (enterable : name ∈ unvisited) :
    h.lineWithin unvisited name = assemble name ((h.heritage entry).map fun link =>
      (link.role, h.lineWithin (unvisited.erase name) link.target)) := by
  rw [lineWithin]
  simp [declared, enterable]

/-- Whether everything below can be entered: then the recursion cuts nothing. -/
def Open (h : Hierarchy) (unvisited : List QualifiedName) (name : QualifiedName) : Prop :=
  ∀ other, ReflTransGen h.Edge name other → (h.environment.module? other).isSome →
    other ∈ unvisited

theorem open_keys (h : Hierarchy) (name : QualifiedName) :
    h.Open h.environment.modules.keys name :=
  fun _ _ declared => (OrderedMap.mem_keys_iff _ _).2 declared

/-- Without a cycle, entering a class or module bars nothing below it. -/
theorem Open.erase (opened : h.Open unvisited name) (acyclic : ¬h.ReachesCycle name)
    (edge : h.Edge name target) : h.Open (unvisited.erase name) target := by
  intro other reached declared
  have mem := opened other (.head edge reached) declared
  have differs : other ≠ name := by
    rintro rfl
    exact acyclic ⟨other, .refl, TransGen.head' edge reached⟩
  exact (List.mem_erase_of_ne differs).2 mem

theorem lineWithin_congr {unvisited' : List QualifiedName} (acyclic : ¬h.ReachesCycle name)
    (opened : h.Open unvisited name) (opened' : h.Open unvisited' name) :
    h.lineWithin unvisited name = h.lineWithin unvisited' name := by
  fun_induction lineWithin h unvisited name generalizing unvisited' with
  | case1 unvisited name undeclared =>
    rw [lineWithin]
    simp [undeclared]
  | case2 unvisited name entry declared enterable ih =>
    have enterable' := opened' name .refl (by simp [declared])
    rw [lineWithin_eq_assemble declared enterable']
    congr 1
    refine List.map_congr_left fun link mem => ?_
    have edge := edge_of_mem_heritage declared mem
    rw [ih link (fun cyclic => acyclic (.of_edge edge cyclic)) (opened.erase acyclic edge)
      (opened'.erase acyclic edge)]
  | case3 unvisited name entry declared visited =>
    exact absurd (opened name .refl (by simp [declared])) visited

/-- Without a cycle, the lineage of a class or module is assembled from the lineages of what it
stands on. -/
theorem line_eq_assemble {entry : ModuleEntry}
    (declared : h.environment.module? name = some entry) (acyclic : ¬h.ReachesCycle name) :
    h.line name =
      assemble name ((h.heritage entry).map fun link => (link.role, h.line link.target)) := by
  have enterable := h.open_keys name name .refl (by simp [declared])
  rw [line, lineWithin_eq_assemble declared enterable]
  congr 1
  refine List.map_congr_left fun link mem => ?_
  have edge := edge_of_mem_heritage declared mem
  rw [line, lineWithin_congr (fun cyclic => acyclic (.of_edge edge cyclic))
    ((h.open_keys name).erase acyclic edge) (h.open_keys link.target)]

/-! ## The memory -/

/-- Every known lineage of a class or module without a cycle is that of the plain recursion. -/
def Truthful (h : Hierarchy) (known : Lineages) : Prop :=
  ∀ name line, known.find? name = some line → ¬h.ReachesCycle name → line = h.line name

/-- Everything that is not to be entered any more stands on the class or module. -/
def Above (h : Hierarchy) (unvisited : List QualifiedName) (name : QualifiedName) : Prop :=
  ∀ other, (h.environment.module? other).isSome → other ∉ unvisited → TransGen h.Edge other name

theorem Above.erase (above : h.Above unvisited name) (edge : h.Edge name target) :
    h.Above (unvisited.erase name) target := by
  intro other declared visited
  by_cases same : other = name
  · exact same ▸ .single edge
  · have earlier : other ∉ unvisited := fun mem => visited ((List.mem_erase_of_ne same).2 mem)
    exact (above other declared earlier).tail edge

theorem Truthful.insertIfNew {line : List QualifiedName} (truthful : h.Truthful known)
    (true_line : ¬h.ReachesCycle name → line = h.line name) :
    h.Truthful (known.insertIfNew name line) := by
  intro other stored found acyclic
  rcases OrderedMap.find?_insertIfNew_cases found with before | ⟨rfl, rfl⟩
  · exact truthful other stored before acyclic
  · exact true_line acyclic

/-- A computation keeps the memory truthful, and its result is true where there is no cycle. -/
theorem truthful_lineage (h : Hierarchy) (unvisited : List QualifiedName) (name : QualifiedName)
    (known : Lineages) (above : h.Above unvisited name) (truthful : h.Truthful known) :
    h.Truthful ((h.lineage unvisited name).run known).2 ∧
      (¬h.ReachesCycle name → ((h.lineage unvisited name).run known).1 = h.line name) := by
  revert above truthful
  refine (lineage_rule (h := h)
    (P := fun unvisited name known line later => h.Above unvisited name → h.Truthful known →
      h.Truthful later ∧ (¬h.ReachesCycle name → line = h.line name))
    (Q := fun unvisited links known parts later =>
      (∀ link ∈ links, h.Above unvisited link.target) → h.Truthful known →
      h.Truthful later ∧ ((∀ link ∈ links, ¬h.ReachesCycle link.target) →
        parts = links.map fun link => (link.role, h.line link.target)))
    ?recalled ?barred ?entered ?nil ?cons).1 unvisited name known
  case recalled =>
    intro unvisited name known line found _ truthful
    exact ⟨truthful, truthful name line found⟩
  case barred =>
    intro unvisited name known _ barred above truthful
    refine ⟨truthful, fun acyclic => ?_⟩
    cases declared : h.environment.module? name with
    | none =>
      rw [line, lineWithin]
      simp [declared]
    | some entry =>
      -- A class or module that is still being computed stands on itself.
      have visited : name ∉ unvisited := by simpa [declared] using barred
      exact absurd ⟨name, .refl, above name (by simp [declared]) visited⟩ acyclic
  case entered =>
    intro unvisited name known entry parts later _ declared _ computed above truthful
    obtain ⟨truthful', true_parts⟩ := computed
      (fun link mem => above.erase (edge_of_mem_heritage declared mem)) truthful
    have true_line : ¬h.ReachesCycle name → assemble name parts = h.line name := by
      intro acyclic
      rw [line_eq_assemble declared acyclic, true_parts fun link mem cyclic =>
        acyclic (.of_edge (edge_of_mem_heritage declared mem) cyclic)]
    exact ⟨truthful'.insertIfNew true_line, true_line⟩
  case nil =>
    intro unvisited known _ truthful
    exact ⟨truthful, fun _ => rfl⟩
  case cons =>
    intro unvisited link links known line middle parts later first rest above truthful
    obtain ⟨truthful', true_first⟩ := first (above link List.mem_cons_self) truthful
    obtain ⟨truthful'', true_rest⟩ :=
      rest (fun link mem => above link (List.mem_cons_of_mem _ mem)) truthful'
    refine ⟨truthful'', fun acyclic => ?_⟩
    rw [true_first (acyclic link List.mem_cons_self),
      true_rest fun link mem => acyclic link (List.mem_cons_of_mem _ mem)]
    rfl

theorem Grown.truthful (grown : h.Grown known) : h.Truthful known := by
  induction grown with
  | empty => exact fun _ _ found => nomatch found
  | @request known grown name ih =>
    cases leads : h.environment.normalize? name with
    | none =>
      rw [run_ancestors?_of_none leads]
      exact ih
    | some target =>
      rw [run_ancestors?_of_some leads]
      have above : h.Above h.environment.modules.keys target :=
        fun other declared visited => absurd ((OrderedMap.mem_keys_iff _ _).2 declared) visited
      exact (h.truthful_lineage _ _ _ above ih).1

end Hierarchy

end NameResolution
