import NameResolution.Ancestry.Lineage
import NameResolution.Proofs.Environment.Alias
import NameResolution.Proofs.OrderedMap.Growth

/-!
# Computing lineages

What one computation of a lineage does to the lineages known before. The computation recurses on
the links of the class or module that it enters, so every property of it is proved in two parts,
one for a class or module and one for a list of links.

## Main definitions

* `Hierarchy.LinkOf` — a link comes from a superclass or a mixin.
* `Hierarchy.lineParts` — the lineages of the targets of some links.
* `Hierarchy.Grown` — the lineages that requests can lead to.

## Main statements

* `Hierarchy.lineage_rule` — the induction that the recursion gives.
* `Hierarchy.growth_lineage` — a computed lineage leaves older ones as they are.
* `Hierarchy.fst_ancestors?` — what has been asked for is known from then on.
-/

namespace NameResolution

namespace Hierarchy

variable {h : Hierarchy} {unvisited : List QualifiedName} {name : QualifiedName}
  {known : Lineages}

/-! ## Links -/

/-- A link leads to what the superclass, stated or implied, stands for, or to what a mixin does. -/
inductive LinkOf (h : Hierarchy) (entry : ModuleEntry) : Link → Prop
  | superclass {superclass target : QualifiedName}
      (inherits : h.superclass? entry = some superclass)
      (leads : h.environment.normalize? superclass = some target) :
      LinkOf h entry ⟨.superclass, target⟩
  | mixin {mixin : Mixin} {target : QualifiedName} (mixes : mixin ∈ entry.mixins)
      (leads : h.environment.normalize? mixin.moduleName = some target) :
      LinkOf h entry ⟨.mixin mixin.form, target⟩

theorem mem_heritage_iff {entry : ModuleEntry} {link : Link} :
    link ∈ h.heritage entry ↔ h.LinkOf entry link := by
  rw [heritage, List.mem_append]
  constructor
  · rintro (inherited | mixed)
    · obtain ⟨superclass, inherits, found⟩ :=
        Option.bind_eq_some_iff.1 (Option.mem_toList.1 inherited)
      obtain ⟨target, leads, rfl⟩ := Option.map_eq_some_iff.1 found
      exact .superclass inherits leads
    · obtain ⟨mixin, mixes, found⟩ := List.mem_filterMap.1 mixed
      obtain ⟨target, leads, rfl⟩ := Option.map_eq_some_iff.1 found
      exact .mixin mixes leads
  · intro origin
    cases origin with
    | superclass inherits leads => exact .inl (by simp [inherits, link?, leads])
    | mixin mixes leads => exact .inr (List.mem_filterMap.2 ⟨_, mixes, by simp [link?, leads]⟩)

/-! ## One step -/

/-- The lineages of the targets of some links, each with the role of its link. -/
def lineParts (h : Hierarchy) (unvisited : List QualifiedName) (links : List Link) :
    StateM Lineages (List (Role × List QualifiedName)) :=
  links.mapM fun link => do return (link.role, ← h.lineage unvisited link.target)

theorem run_lineage_of_known {line : List QualifiedName} (found : known.find? name = some line) :
    (h.lineage unvisited name).run known = (line, known) := by
  rw [lineage]
  simp [found]
  rfl

theorem run_lineage_of_barred (fresh : known.find? name = none)
    (barred : h.environment.module? name = none ∨ name ∉ unvisited) :
    (h.lineage unvisited name).run known = ([], known) := by
  rw [lineage]
  cases declared : h.environment.module? name with
  | none =>
    simp [fresh]
    rfl
  | some entry =>
    have visited : name ∉ unvisited := by simpa [declared] using barred
    simp [fresh, visited]
    rfl

theorem run_lineage_of_entered {entry : ModuleEntry} (fresh : known.find? name = none)
    (declared : h.environment.module? name = some entry) (enterable : name ∈ unvisited) :
    (h.lineage unvisited name).run known =
      let parts := (h.lineParts (unvisited.erase name) (h.heritage entry)).run known
      (assemble name parts.1, parts.2.insertIfNew name (assemble name parts.1)) := by
  rw [lineage]
  simp [fresh, declared, enterable, lineParts]
  rfl

theorem run_lineParts_cons (link : Link) (links : List Link) :
    (h.lineParts unvisited (link :: links)).run known =
      let first := (h.lineage unvisited link.target).run known
      let rest := (h.lineParts unvisited links).run first.2
      ((link.role, first.1) :: rest.1, rest.2) := by
  simp [lineParts]
  rfl

theorem run_lineParts_append {links links' : List Link}
    {parts parts' : List (Role × List QualifiedName)} {middle later : Lineages}
    (first : (h.lineParts unvisited links).run known = (parts, middle))
    (rest : (h.lineParts unvisited links').run middle = (parts', later)) :
    (h.lineParts unvisited (links ++ links')).run known = (parts ++ parts', later) := by
  rw [lineParts] at first rest ⊢
  rw [List.mapM_append, StateT.run_bind, first]
  exact congrArg (fun result => (parts ++ result.1, result.2)) rest

/-! ## The induction -/

theorem lineParts_rule
    {P : QualifiedName → Lineages → List QualifiedName → Lineages → Prop}
    {Q : List Link → Lineages → List (Role × List QualifiedName) → Lineages → Prop}
    (nil : ∀ {known}, Q [] known [] known)
    (cons : ∀ {link links known line middle parts later},
      P link.target known line middle → Q links middle parts later →
      Q (link :: links) known ((link.role, line) :: parts) later)
    (single : ∀ name known, P name known ((h.lineage unvisited name).run known).1
      ((h.lineage unvisited name).run known).2) (links : List Link) (known : Lineages) :
    Q links known ((h.lineParts unvisited links).run known).1
      ((h.lineParts unvisited links).run known).2 := by
  induction links generalizing known with
  | nil => exact nil
  | cons link links rest =>
    rw [run_lineParts_cons]
    exact cons (single link.target known) (rest _)

/-- A property of single computations and one of lists of them hold of all when they follow from
one another the way that the computations call each other. -/
theorem lineage_rule
    {P : List QualifiedName → QualifiedName → Lineages → List QualifiedName → Lineages → Prop}
    {Q : List QualifiedName → List Link → Lineages → List (Role × List QualifiedName) →
      Lineages → Prop}
    (recalled : ∀ {unvisited name known line}, known.find? name = some line →
      P unvisited name known line known)
    (barred : ∀ {unvisited name known}, known.find? name = none →
      h.environment.module? name = none ∨ name ∉ unvisited → P unvisited name known [] known)
    (entered : ∀ {unvisited name known entry parts later}, known.find? name = none →
      h.environment.module? name = some entry → name ∈ unvisited →
      Q (unvisited.erase name) (h.heritage entry) known parts later →
      P unvisited name known (assemble name parts)
        (later.insertIfNew name (assemble name parts)))
    (nil : ∀ {unvisited known}, Q unvisited [] known [] known)
    (cons : ∀ {unvisited link links known line middle parts later},
      P unvisited link.target known line middle → Q unvisited links middle parts later →
      Q unvisited (link :: links) known ((link.role, line) :: parts) later) :
    (∀ unvisited name known, P unvisited name known ((h.lineage unvisited name).run known).1
      ((h.lineage unvisited name).run known).2) ∧
    ∀ unvisited links known, Q unvisited links known ((h.lineParts unvisited links).run known).1
      ((h.lineParts unvisited links).run known).2 := by
  have single : ∀ unvisited name known, P unvisited name known
      ((h.lineage unvisited name).run known).1 ((h.lineage unvisited name).run known).2 := by
    intro unvisited
    -- Every entered class or module leaves the list, so its length bounds the depth.
    induction size : unvisited.length generalizing unvisited with
    | zero =>
      intro name known
      cases found : known.find? name with
      | some line => simpa [run_lineage_of_known found] using recalled found
      | none =>
        obtain rfl := List.length_eq_zero_iff.1 size
        have visited : h.environment.module? name = none ∨ name ∉ [] := .inr List.not_mem_nil
        simpa [run_lineage_of_barred found visited] using barred found visited
    | succ size' ih =>
      intro name known
      cases found : known.find? name with
      | some line => simpa [run_lineage_of_known found] using recalled found
      | none =>
        by_cases enterable : (h.environment.module? name).isSome ∧ name ∈ unvisited
        · obtain ⟨entry, declared⟩ := Option.isSome_iff_exists.1 enterable.1
          have smaller : (unvisited.erase name).length = size' := by
            rw [List.length_erase_of_mem enterable.2]
            omega
          rw [run_lineage_of_entered found declared enterable.2]
          exact entered found declared enterable.2
            (lineParts_rule nil cons (ih _ smaller) (h.heritage entry) known)
        · have visited : h.environment.module? name = none ∨ name ∉ unvisited := by
            rcases Classical.not_and_iff_not_or_not.1 enterable with undeclared | gone
            · exact .inl (Option.not_isSome_iff_eq_none.1 undeclared)
            · exact .inr gone
          simpa [run_lineage_of_barred found visited] using barred found visited
  exact ⟨single, fun unvisited => lineParts_rule nil cons (single unvisited)⟩

/-! ## Growth -/

/-- The lineages after a computation: older ones stay, new ones belong to classes and modules that
could be entered. -/
structure Growth (unvisited : List QualifiedName) (known later : Lineages) : Prop where
  keeps : known.GrowsTo later
  introduces : ∀ name, (later.find? name).isSome → (known.find? name).isSome ∨ name ∈ unvisited

namespace Growth

variable {later final : Lineages}

protected theorem refl (unvisited : List QualifiedName) (known : Lineages) :
    Growth unvisited known known := ⟨.refl known, fun _ found => .inl found⟩

protected theorem trans (first : Growth unvisited known later)
    (second : Growth unvisited later final) : Growth unvisited known final := by
  refine ⟨first.keeps.trans second.keeps, fun name found => ?_⟩
  rcases second.introduces name found with before | new
  · exact first.introduces name before
  · exact .inr new

theorem find?_eq_none (growth : Growth unvisited known later) (fresh : known.find? name = none)
    (visited : name ∉ unvisited) : later.find? name = none := by
  cases found : later.find? name with
  | none => rfl
  | some line =>
    have := growth.introduces name (by simp [found])
    simp [fresh, visited] at this

theorem enter (growth : Growth (unvisited.erase name) known later) (enterable : name ∈ unvisited)
    (line : List QualifiedName) : Growth unvisited known (later.insertIfNew name line) := by
  refine ⟨growth.keeps.trans (.insertIfNew later name line), fun other found => ?_⟩
  rw [OrderedMap.find?_insertIfNew] at found
  split at found
  · next same => exact .inr (same ▸ enterable)
  · rcases growth.introduces other found with before | new
    · exact .inl before
    · exact .inr (List.mem_of_mem_erase new)

end Growth

theorem growth_both (h : Hierarchy) :
    (∀ unvisited name known, Growth unvisited known ((h.lineage unvisited name).run known).2) ∧
    ∀ unvisited links known, Growth unvisited known
      ((h.lineParts unvisited links).run known).2 := by
  refine lineage_rule (P := fun unvisited _ known _ later => Growth unvisited known later)
    (Q := fun unvisited _ known _ later => Growth unvisited known later) ?recalled ?barred ?entered
    ?nil ?cons
  case recalled => exact fun _ => .refl _ _
  case barred => exact fun _ _ => .refl _ _
  case entered => exact fun _ _ enterable growth => growth.enter enterable _
  case nil => exact .refl _ _
  case cons => exact fun first rest => first.trans rest

theorem growth_lineage (h : Hierarchy) (unvisited : List QualifiedName) (name : QualifiedName)
    (known : Lineages) : Growth unvisited known ((h.lineage unvisited name).run known).2 :=
  h.growth_both.1 unvisited name known

/-- The lineage of a class or module that can be entered is known afterwards. -/
theorem find?_lineage (declared : (h.environment.module? name).isSome)
    (enterable : name ∈ unvisited) (nodup : unvisited.Nodup) (known : Lineages) :
    ((h.lineage unvisited name).run known).2.find? name =
      some ((h.lineage unvisited name).run known).1 := by
  obtain ⟨entry, declared⟩ := Option.isSome_iff_exists.1 declared
  cases found : known.find? name with
  | some line => simp [run_lineage_of_known found, found]
  | none =>
    rw [run_lineage_of_entered found declared enterable]
    -- Nothing below enters `name` again, so it is still unknown when its line is stored.
    have parts := h.growth_both.2 (unvisited.erase name) (h.heritage entry) known
    exact OrderedMap.find?_insertIfNew_self _
      (parts.find?_eq_none found nodup.not_mem_erase)

/-! ## Requests -/

theorem run_ancestors?_of_none (nowhere : h.environment.normalize? name = none)
    (known : Lineages) : (h.ancestors? name).run known = (none, known) := by
  simp [ancestors?, nowhere]
  rfl

theorem run_ancestors?_of_some {target : QualifiedName}
    (leads : h.environment.normalize? name = some target) (known : Lineages) :
    (h.ancestors? name).run known =
      let visit := (h.lineage h.environment.modules.keys target).run known
      (some visit.1, visit.2) := by
  simp [ancestors?, leads]
  rfl

theorem growsTo_ancestors? (h : Hierarchy) (name : QualifiedName) (known : Lineages) :
    known.GrowsTo ((h.ancestors? name).run known).2 := by
  cases leads : h.environment.normalize? name with
  | none =>
    rw [run_ancestors?_of_none leads]
    exact .refl known
  | some target =>
    rw [run_ancestors?_of_some leads]
    exact (h.growth_lineage _ _ _).keeps

/-- What has been asked for is known from then on. -/
theorem fst_ancestors? (h : Hierarchy) (name : QualifiedName) (known : Lineages) :
    ((h.ancestors? name).run known).1 = (h.environment.normalize? name).bind
      fun target => ((h.ancestors? name).run known).2.find? target := by
  cases leads : h.environment.normalize? name with
  | none =>
    rw [run_ancestors?_of_none leads]
    rfl
  | some target =>
    have declared := Environment.contains_of_normalize? leads
    have enterable := (OrderedMap.contains_iff_mem_keys _ _).1 declared
    rw [run_ancestors?_of_some leads]
    exact (find?_lineage declared enterable h.environment.modules.nodup_keys known).symm

theorem isSome_ancestors? {target : QualifiedName}
    (leads : h.environment.normalize? name = some target) (known : Lineages) :
    (((h.ancestors? name).run known).2.find? target).isSome := by
  have declared := Environment.contains_of_normalize? leads
  have enterable := (OrderedMap.contains_iff_mem_keys _ _).1 declared
  rw [run_ancestors?_of_some leads]
  simp [find?_lineage declared enterable h.environment.modules.nodup_keys known]

/-- The lineages that a run of requests can lead to. -/
inductive Grown (h : Hierarchy) : Lineages → Prop
  | empty : Grown h ∅
  | request {known : Lineages} (grown : Grown h known) (name : QualifiedName) :
      Grown h ((h.ancestors? name).run known).2

end Hierarchy

end NameResolution
