import Mathlib.Data.List.Induction
import NameResolution.Proofs.Ancestry.Acyclic
import NameResolution.Proofs.Ancestry.Remembered

/-!
# Included lines

Where nothing is prepended and no cycle is run into, the ancestors of a class or module are itself,
then one block for each include, the latest first, and then the ancestors of its superclass. A block
is the line of its include in its own order, without what the superclass or an earlier include has
brought already.

## Main definitions

* `newcomers` — what each of some lines brings that none before it has.

## Main statements

* `assemble_included` — the line from the superclass's line and those of the includes.
* `Hierarchy.Grown.fst_ancestors?_eq` — whatever is remembered, a request without cycles is answered
  by the plain recursion.
* `Hierarchy.ancestors_eq_newcomers` — the ancestors of a class or module.
-/

namespace NameResolution

/-! ## Blocks -/

section newcomers

variable {name : QualifiedName} {lines : List (List QualifiedName)}

/-- Each of the lines in its own order, without what stands in `seen` or in a line before it. -/
def newcomers (seen : List QualifiedName) : List (List QualifiedName) → List (List QualifiedName)
  | [] => []
  | line :: later => line.filter (· ∉ seen) :: newcomers (seen ++ line) later

theorem newcomers_append_singleton (seen : List QualifiedName) (lines : List (List QualifiedName))
    (line : List QualifiedName) :
    newcomers seen (lines ++ [line]) =
      newcomers seen lines ++ [line.filter (· ∉ seen ++ lines.flatten)] := by
  induction lines generalizing seen with
  | nil => simp [newcomers]
  | cons first later ih => simp [newcomers, ih]

/-- Nothing of the lines is lost. -/
theorem mem_newcomers_iff (seen : List QualifiedName) (lines : List (List QualifiedName)) :
    name ∈ (newcomers seen lines).flatten ∨ name ∈ seen ↔ name ∈ lines.flatten ∨ name ∈ seen := by
  induction lines generalizing seen with
  | nil => simp [newcomers]
  | cons first later ih =>
    have later_or := ih (seen ++ first)
    simp only [newcomers, List.flatten_cons, List.mem_append, List.mem_filter, decide_eq_true_eq]
      at later_or ⊢
    tauto

/-- The parts of a line with at most one superclass and otherwise includes. -/
def includedParts (inherited? : Option (List QualifiedName)) (lines : List (List QualifiedName)) :
    List (Role × List QualifiedName) :=
  inherited?.toList.map (.superclass, ·) ++ lines.map (.mixin .included, ·)

theorem superclass_first_includedParts (inherited? : Option (List QualifiedName))
    (lines : List (List QualifiedName)) :
    ∀ part ∈ (includedParts inherited? lines).tail, part.1 ≠ .superclass := by
  have mixins : ∀ part ∈ lines.map (Role.mixin .included, ·), part.1 ≠ .superclass := by simp
  cases inherited? with
  | none => exact fun part mem => mixins part (List.mem_of_mem_tail mem)
  | some inherited => exact mixins

theorem none_prepended_includedParts (inherited? : Option (List QualifiedName))
    (lines : List (List QualifiedName)) :
    ∀ part ∈ includedParts inherited? lines, part.1 ≠ .mixin .prepended := by
  intro part mem
  rcases List.mem_append.1 mem with mem | mem
  · obtain ⟨_, -, rfl⟩ := List.mem_map.1 mem
    simp
  · obtain ⟨_, -, rfl⟩ := List.mem_map.1 mem
    simp

theorem assemble_included (owner : QualifiedName) (inherited? : Option (List QualifiedName))
    (nodup : ∀ line ∈ lines, line.Nodup) :
    assemble owner (includedParts inherited? lines) = owner ::
      ((newcomers (inherited?.getD []) lines).reverse.flatten ++ inherited?.getD []) := by
  -- The last include is the last one placed, so the induction goes from that end.
  induction lines using List.reverseRecOn with
  | nil =>
    cases inherited? with
    | none => rfl
    | some inherited => rfl
  | append_singleton lines line ih =>
    have earlier := ih fun line mem => nodup line (List.mem_append_left _ mem)
    have split : includedParts inherited? (lines ++ [line]) =
        includedParts inherited? lines ++ [(.mixin .included, line)] := by
      simp [includedParts]
    rw [split, assemble_append_included (superclass_first_includedParts inherited? lines)
        (none_prepended_includedParts inherited? lines) (nodup line (by simp)), earlier,
      newcomers_append_singleton, List.tail_cons, List.reverse_append, List.reverse_singleton,
      List.singleton_append, List.flatten_cons, List.append_assoc]
    congr 2
    refine List.filter_congr fun name _ => decide_eq_decide.2 (not_congr ?_)
    rw [List.mem_append, List.mem_append, or_comm (a := name ∈ inherited?.getD []),
      ← mem_newcomers_iff _ lines]
    simp

end newcomers

namespace Hierarchy

variable {h : Hierarchy} {name : QualifiedName} {known later : Lineages}

/-! ## Lines without cycles -/

/-- Whatever is remembered, a request that runs into no cycle is answered by the plain recursion. -/
theorem Grown.fst_ancestors?_eq (grown : h.Grown known)
    (acyclic : ∀ target, h.environment.normalize? name = some target → ¬h.ReachesCycle target) :
    ((h.ancestors? name).run known).1 = (h.environment.normalize? name).map h.line := by
  rw [fst_ancestors?]
  cases leads : h.environment.normalize? name with
  | none => rfl
  | some target =>
    obtain ⟨line, found⟩ := Option.isSome_iff_exists.1 (isSome_ancestors? leads known)
    have truthful := (grown.request name).truthful target line found (acyclic target leads)
    rw [Option.bind_some, found, truthful, Option.map_some]

theorem Grown.fst_ancestors?_eq_line (grown : h.Grown known)
    (declared : (h.environment.module? name).isSome) (acyclic : ¬h.ReachesCycle name) :
    ((h.ancestors? name).run known).1 = some (h.line name) := by
  have itself := Environment.normalize?_of_contains declared
  rw [grown.fst_ancestors?_eq fun target leads => ?_, itself, Option.map_some]
  exact Option.some.inj (itself.symm.trans leads) ▸ acyclic

/-- Where nothing prepends, the line of a class or module without a cycle repeats nothing. -/
theorem nodup_line (free : PrependFree h.environment)
    (declared : (h.environment.module? name).isSome) (acyclic : ¬h.ReachesCycle name) :
    (h.line name).Nodup := by
  have itself := Environment.normalize?_of_contains declared
  obtain ⟨line, found⟩ := Option.isSome_iff_exists.1 (isSome_ancestors? itself ∅)
  have grown : h.Grown _ := Grown.empty.request name
  exact grown.truthful name line found acyclic ▸ (grown.allPlaced name line found).nodup free

/-- Where nothing prepends, the line of a class or module is assembled from its superclass's line
and from those of its includes. -/
theorem line_eq_assemble_included {entry : ModuleEntry} (free : PrependFree h.environment)
    (declared : h.environment.module? name = some entry) (acyclic : ¬h.ReachesCycle name) :
    h.line name = assemble name (includedParts
      ((h.superclass? entry).bind fun superclass =>
        (h.environment.normalize? superclass).map h.line)
      (entry.mixins.filterMap fun mixin =>
        (h.environment.normalize? mixin.moduleName).map h.line)) := by
  rw [line_eq_assemble declared acyclic, heritage, includedParts, List.map_append]
  congr 2
  · cases h.superclass? entry with
    | none => rfl
    | some superclass => cases leads : h.environment.normalize? superclass <;> simp [link?, leads]
  · rw [List.map_filterMap, List.map_filterMap]
    refine List.filterMap_congr fun mixin mixes => ?_
    have form : mixin.form = .included := by
      cases form : mixin.form with
      | included => rfl
      | prepended => exact absurd form (free name entry declared mixin mixes)
    simp [link?, form, Function.comp_def]

/-- The ancestors of a class or module that runs into no cycle, in an environment that prepends
nothing, are itself, the newcomers of its includes from the latest include to the first, and the
ancestors of its superclass. The superclass is the stated or the implied one, and names that stand
for no class or module bring nothing. It does not matter what is remembered when the whole and when
its parts are asked for, cyclic ancestries included. -/
theorem ancestors_eq_newcomers (h : Hierarchy) (free : PrependFree h.environment)
    {name : QualifiedName} {entry : ModuleEntry}
    (declared : h.environment.module? name = some entry) (acyclic : ¬h.ReachesCycle name)
    {known later : Lineages} (grown : h.Grown known) (grown' : h.Grown later) :
    let ancestors (name : QualifiedName) := ((h.ancestors? name).run known).1
    let inherited := ((h.superclass? entry).bind ancestors).getD []
    let included := entry.mixins.filterMap fun mixin => ancestors mixin.moduleName
    ((h.ancestors? name).run later).1 =
      some (name :: ((newcomers inherited included).reverse.flatten ++ inherited)) := by
  intro ancestors inherited included
  have whole := grown'.fst_ancestors?_eq_line (Option.isSome_of_eq_some declared) acyclic
  have below {target : QualifiedName} (edge : h.Edge name target) : ¬h.ReachesCycle target :=
    fun cyclic => acyclic (.of_edge edge cyclic)
  have superclass : (h.superclass? entry).bind ancestors =
      (h.superclass? entry).bind fun superclass =>
        (h.environment.normalize? superclass).map h.line := by
    cases inherits : h.superclass? entry with
    | none => rfl
    | some superclass =>
      exact grown.fst_ancestors?_eq fun target leads => below (.superclass declared inherits leads)
  have mixins : included = entry.mixins.filterMap fun mixin =>
      (h.environment.normalize? mixin.moduleName).map h.line := by
    refine List.filterMap_congr fun mixin mixes => ?_
    exact grown.fst_ancestors?_eq fun target leads => below (.mixin declared mixes leads)
  have nodup : ∀ line ∈ included, line.Nodup := by
    intro line mem
    rw [mixins] at mem
    obtain ⟨mixin, mixes, found⟩ := List.mem_filterMap.1 mem
    obtain ⟨target, leads, rfl⟩ := Option.map_eq_some_iff.1 found
    exact nodup_line free (Environment.contains_of_normalize? leads)
      (below (.mixin declared mixes leads))
  rw [whole, line_eq_assemble_included free declared acyclic, ← superclass, ← mixins,
    assemble_included name _ nodup]

end Hierarchy

/-! ## An example -/

namespace Environment

/-- A class that is opened twice, with includes that share ancestors with each other and with its
superclass: a module by its alias, an unknown name, a module that includes the first one again, and
a class. Beside it stand two modules that include each other. -/
def overlappingDecls : List Declaration :=
  let named := Namespace.root.member
  let opened (name : String) (head : ModuleHead) (includes : List String) : Declaration :=
    .ofModule ⟨named name, head, includes.map fun mixin => ⟨.included, named mixin⟩, none⟩
  [opened "Object" (.ofClass none) [],
    opened "A" (.ofModule []) [],
    opened "B" (.ofModule []) ["A"],
    opened "E" (.ofModule []) [],
    opened "D" (.ofModule []) ["E", "B"],
    opened "Tool" (.ofClass none) [],
    opened "Parent" (.ofClass none) ["A"],
    .ofAlias ⟨named "Bee", named "B", .moduleKind, none⟩,
    opened "Child" (.ofClass (some (named "Parent"))) ["Bee"],
    opened "Child" (.ofClass none) ["Gone", "D", "Tool"],
    opened "X" (.ofModule []) ["Y"],
    opened "Y" (.ofModule []) ["X"]]

/-- The environment of `overlappingDecls`. -/
def overlapping : Environment := (ofDeclarations overlappingDecls).toOption.getD ∅

theorem built_overlapping : Built overlappingDecls overlapping := .of_ofDeclarations rfl

end Environment

namespace Hierarchy

/-- After a cycle was asked for, the class has the newcomers of its three includes, the latest
first, between itself and the line of its superclass. -/
theorem ancestors_eq_newcomers_overlapping :
    let named := Namespace.root.member
    let h : Hierarchy := ⟨.overlapping, .standard⟩
    h.ReachesCycle (named "X") ∧ ¬h.ReachesCycle (named "Child") ∧
      ((h.ancestors? (named "Child")).run (h.lineagesAfter [named "X"])).1 =
        some (["Child", "Tool", "D", "E", "B", "Parent", "A", "Object"].map named) := by
  intro named h
  have cyclic : h.ReachesCycle (named "X") := by
    have there : h.Edge (named "X") (named "Y") := edge_iff_mem_bases.2 (by decide +kernel)
    have back : h.Edge (named "Y") (named "X") := edge_iff_mem_bases.2 (by decide +kernel)
    exact ⟨named "X", .refl, .tail (.single there) back⟩
  have acyclic : ¬h.ReachesCycle (named "Child") :=
    -- What the class stands on is declared before it, and the cycle is declared after it.
    not_reachesCycle_of_rank_le h.environment.modules.keys.idxOf (by decide +kernel)
  have free : PrependFree h.environment :=
    Environment.built_overlapping.prependFree (by decide)
  have declared : h.environment.module? (named "Child") =
      some ((h.environment.module? (named "Child")).get (by decide +kernel)) := by simp
  have line := ancestors_eq_newcomers h free declared acyclic Grown.empty
    (h.grown_lineagesAfter [named "X"])
  exact ⟨cyclic, acyclic, line.trans (by decide +kernel)⟩

end Hierarchy

end NameResolution
