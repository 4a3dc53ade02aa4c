import NameResolution.Proofs.Ancestry.Inclusion
import NameResolution.Proofs.Ancestry.Reach
import NameResolution.Proofs.Environment.Agreement
import NameResolution.Proofs.Lists

/-!
# Opening a module again to include another one

A class or module that is opened again changes its own ancestors, and through them those of the
classes and modules that reach it. All others keep theirs. What a new include brings comes right
behind the owner, in the order that it has in the line of the include. What the owner had before
stays where it was, so an ancestor that both lines have may come to stand behind ancestors that it
precedes in the line of the include.

## Main definitions

* `Environment.Reopened` — a class or module is opened once more.
* `Environment.Reincludes` — it is opened once more to include a class or module.

## Main statements

* `Hierarchy.line_reopened` — the lines of other classes and modules.
* `Environment.Reincludes.line_eq` — the line of the owner.
* `Hierarchy.inclusion_keeps_order_iff` — when the order of the included line is kept.
* `Hierarchy.inclusion_breaks_order` — an inclusion that does not keep the order.
-/

namespace NameResolution

/-! ## Lines within a common one -/

section Sublist

variable {line common old : List QualifiedName} {owner : QualifiedName}

/-- A line keeps its order, when its newcomers are put before an older line that agrees with it,
just when the newcomers come first in it. -/
theorem sublist_newcomers_iff (strange : owner ∉ line) (nodup : common.Nodup)
    (mine : (owner :: old).Sublist common) (its : line.Sublist common) :
    line.Sublist (owner :: (line.filter (· ∉ old) ++ old)) ↔
      ∃ fresh shared, line = fresh ++ shared ∧ (∀ name ∈ fresh, name ∉ owner :: old) ∧
        ∀ name ∈ shared, name ∈ owner :: old := by
  constructor
  · intro kept
    have behind : line.Sublist (line.filter (· ∉ old) ++ old) := by
      rcases List.sublist_cons_iff.1 kept with behind | ⟨rest, starts, -⟩
      · exact behind
      · exact absurd (starts ▸ List.mem_cons_self) strange
    obtain ⟨fresh, shared, split, among_new, among_old⟩ := List.sublist_append_iff.1 behind
    refine ⟨fresh, shared, split, fun name mem known => ?_, fun name mem =>
      List.mem_cons_of_mem _ (among_old.subset mem)⟩
    obtain ⟨member, unknown⟩ := List.mem_filter.1 (among_new.subset mem)
    rcases List.mem_cons.1 known with rfl | known
    · exact strange member
    · exact of_decide_eq_true unknown known
  · -- Only this way needs the common line: it says that both lines have `shared` in one order.
    rintro ⟨fresh, shared, rfl, unknown, known⟩
    have mem_old : ∀ name ∈ shared, name ∈ old := fun name mem =>
      (List.mem_cons.1 (known name mem)).resolve_left fun same =>
        strange (same ▸ List.mem_append_right _ mem)
    have not_mem_old : ∀ name ∈ fresh, name ∉ old := fun name mem here =>
      unknown name mem (List.mem_cons_of_mem _ here)
    have new : (fresh ++ shared).filter (· ∉ old) = fresh := by
      rw [List.filter_append, List.filter_eq_self.2 (by simpa using not_mem_old),
        List.filter_eq_nil_iff.2 (by simpa using mem_old), List.append_nil]
    have shared_within : shared.Sublist old :=
      sublist_of_subset nodup ((List.sublist_append_right fresh shared).trans its)
        ((List.sublist_cons_self owner old).trans mine) mem_old
    rw [new]
    exact .cons _ (.append (.refl fresh) shared_within)

end Sublist

/-! ## Reopened classes and modules -/

namespace Environment

/-- A class or module of the environment is opened once more. -/
structure Reopened (env : Environment) (decl : ModuleDecl) (env' : Environment) : Prop where
  declared : (env.module? decl.name).isSome
  added : env.add (.ofModule decl) = .ok env'

namespace Reopened

variable {env env' : Environment} {decl : ModuleDecl} {entry : ModuleEntry} {name : QualifiedName}

theorem module?_eq (reopened : env.Reopened decl env')
    (known : env.module? decl.name = some entry) :
    env'.module? decl.name = some (entry.merge decl) := by
  rw [eq_accept_of_add_eq_ok reopened.added, module?, modules_accept]
  simp [OrderedMap.find?_insert, known]

theorem module?_eq_of_ne (reopened : env.Reopened decl env') (other : name ≠ decl.name) :
    env'.module? name = env.module? name := by
  rw [eq_accept_of_add_eq_ok reopened.added, module?, modules_accept]
  simp [OrderedMap.find?_insert, other, module?]

theorem keys_eq (reopened : env.Reopened decl env') : env'.modules.keys = env.modules.keys := by
  have known : decl.name ∈ env.modules.keys := (OrderedMap.mem_keys_iff _ _).2 reopened.declared
  rw [eq_accept_of_add_eq_ok reopened.added, modules_accept]
  exact (OrderedMap.keys_upsert ..).trans (if_pos known)

theorem contains_modules_eq (reopened : env.Reopened decl env') (name : QualifiedName) :
    env'.modules.contains name = env.modules.contains name := by
  rw [Bool.eq_iff_iff, OrderedMap.contains_iff_mem_keys, OrderedMap.contains_iff_mem_keys,
    reopened.keys_eq]

/-- Opening a class or module once more changes nothing in what names stand for. -/
theorem normalize?_eq (reopened : env.Reopened decl env') (name : QualifiedName) :
    env'.normalize? name = env.normalize? name := by
  refine normalize?_congr reopened.contains_modules_eq (fun name => ?_) name
  rw [eq_accept_of_add_eq_ok reopened.added, alias?, aliases_accept]
  rfl

end Reopened

end Environment

namespace Hierarchy

open Relation

variable {env env' : Environment} {decl : ModuleDecl} {entry : ModuleEntry}
  {name target : QualifiedName}

section Reopened

variable (reopened : env.Reopened decl env') (builtins : Builtins)

include reopened

theorem heritage_reopened (entry : ModuleEntry) :
    heritage ⟨env', builtins⟩ entry = heritage ⟨env, builtins⟩ entry :=
  heritage_congr reopened.normalize?_eq builtins entry

theorem edge_of_reopened (other : name ≠ decl.name) (edge : Edge ⟨env', builtins⟩ name target) :
    Edge ⟨env, builtins⟩ name target := by
  rw [edge_iff_mem_bases, bases, reopened.module?_eq_of_ne other,
    funext (heritage_reopened reopened builtins)] at edge
  exact edge_iff_mem_bases.2 edge

/-- What does not lead to a reopened class or module leads where it led before. -/
theorem reaches_of_reopened (apart : ¬Reaches ⟨env, builtins⟩ name decl.name)
    (reaches : Reaches ⟨env', builtins⟩ name target) : Reaches ⟨env, builtins⟩ name target := by
  induction reaches with
  | refl => exact .refl
  | @tail middle target _ edge ih =>
    have other : middle ≠ decl.name := fun same => apart (same ▸ ih)
    exact ih.tail (edge_of_reopened reopened builtins other edge)

theorem reachesCycle_of_reopened (apart : ¬Reaches ⟨env, builtins⟩ name decl.name)
    (cyclic : ReachesCycle ⟨env', builtins⟩ name) : ReachesCycle ⟨env, builtins⟩ name := by
  obtain ⟨other, reached, cycle⟩ := cyclic
  have reached' := reaches_of_reopened reopened builtins apart reached
  obtain ⟨next, edge, back⟩ := TransGen.head'_iff.1 cycle
  have differs : other ≠ decl.name := fun same => apart (same ▸ reached')
  have edge' := edge_of_reopened reopened builtins differs edge
  have apart' : ¬Reaches ⟨env, builtins⟩ next decl.name :=
    fun reaches => apart (reached'.trans (.head edge' reaches))
  exact ⟨other, reached', .head' edge' (reaches_of_reopened reopened builtins apart' back)⟩

theorem lineWithin_reopened (apart : ¬Reaches ⟨env, builtins⟩ name decl.name)
    (unvisited : List QualifiedName) :
    lineWithin ⟨env', builtins⟩ unvisited name = lineWithin ⟨env, builtins⟩ unvisited name := by
  have unchanged {name : QualifiedName} (apart : ¬Reaches ⟨env, builtins⟩ name decl.name) :
      env'.module? name = env.module? name :=
    reopened.module?_eq_of_ne fun same => apart (same ▸ .refl)
  -- What is below does not lead there either, so the recursion never enters the reopened entry.
  fun_induction lineWithin ⟨env, builtins⟩ unvisited name with
  | case1 unvisited name undeclared =>
    rw [lineWithin]
    simp [unchanged apart, undeclared]
  | case2 unvisited name entry declared mem ih =>
    rw [lineWithin_eq_assemble ((unchanged apart).trans declared) mem,
      heritage_reopened reopened]
    congr 1
    refine List.map_congr_left fun link linked => ?_
    have edge := edge_of_mem_heritage declared linked
    rw [ih link fun reaches => apart (.head edge reaches)]
  | case3 unvisited name entry declared visited =>
    rw [lineWithin]
    simp [unchanged apart, declared, visited]

/-- What does not lead to a reopened class or module keeps its line. -/
theorem line_reopened (apart : ¬Reaches ⟨env, builtins⟩ name decl.name) :
    line ⟨env', builtins⟩ name = line ⟨env, builtins⟩ name := by
  rw [line, line, lineWithin_reopened reopened builtins apart]
  exact congrArg (lineWithin ⟨env, builtins⟩ · name) reopened.keys_eq

end Reopened

/-- A reopening that states no superclass adds the links of its mixins. -/
theorem heritage_merge (h : Hierarchy) (entry : ModuleEntry)
    (no_superclass : decl.head.superclass? = none) :
    h.heritage (entry.merge decl) = h.heritage entry ++
      decl.mixins.filterMap fun mixin => h.link? (.mixin mixin.form) mixin.moduleName := by
  have stated : (entry.merge decl).superclass? = entry.superclass? := by
    simp [ModuleEntry.merge, no_superclass]
  have superclass : h.superclass? (entry.merge decl) = h.superclass? entry := by
    rw [superclass?, stated, superclass?]
    rfl
  rw [heritage, superclass, heritage, ModuleEntry.merge, List.filterMap_append, List.append_assoc]

end Hierarchy

/-! ## One more include -/

namespace Environment

/-- A class or module of the environment is opened once more to include a class or module that does
not lead back to it. Nothing prepends, and neither of the two runs into a cycle. -/
structure Reincludes (env : Environment) (builtins : Builtins) (decl : ModuleDecl)
    (mixed : QualifiedName) (env' : Environment) : Prop extends env.Reopened decl env' where
  no_superclass : decl.head.superclass? = none
  mixins : decl.mixins = [⟨.included, mixed⟩]
  itself : (env.module? mixed).isSome
  free : Hierarchy.PrependFree env
  acyclic : ¬Hierarchy.ReachesCycle ⟨env, builtins⟩ decl.name
  acyclic_mixed : ¬Hierarchy.ReachesCycle ⟨env, builtins⟩ mixed
  apart : ¬Hierarchy.Reaches ⟨env, builtins⟩ mixed decl.name

namespace Reincludes

open Relation Hierarchy

variable {env env' : Environment} {builtins : Builtins} {decl : ModuleDecl}
  {mixed target : QualifiedName} {entry : ModuleEntry}

theorem heritage_eq (step : env.Reincludes builtins decl mixed env') (entry : ModuleEntry) :
    heritage ⟨env', builtins⟩ (entry.merge decl) =
      heritage ⟨env, builtins⟩ entry ++ [⟨.mixin .included, mixed⟩] := by
  have leads := normalize?_of_contains step.itself
  rw [heritage_reopened step.toReopened, heritage_merge _ _ step.no_superclass, step.mixins]
  simp [link?, leads]

theorem not_reaches_of_edge (step : env.Reincludes builtins decl mixed env')
    (edge : Edge ⟨env, builtins⟩ decl.name target) : ¬Reaches ⟨env, builtins⟩ target decl.name :=
  fun back => step.acyclic ⟨decl.name, .refl, .head' edge back⟩

/-- The owner runs into no cycle afterwards either. -/
theorem not_reachesCycle (step : env.Reincludes builtins decl mixed env') :
    ¬ReachesCycle ⟨env', builtins⟩ decl.name := by
  obtain ⟨entry, declared⟩ := Option.isSome_iff_exists.1 step.declared
  refine Hierarchy.not_reachesCycle fun target edge cyclic => ?_
  have target_mem : target ∈ bases ⟨env, builtins⟩ decl.name ∨ target = mixed := by
    rw [edge_iff_mem_bases, bases, step.module?_eq declared, Option.toList_some,
      List.flatMap_singleton, step.heritage_eq] at edge
    simpa [bases, declared] using edge
  rcases target_mem with old | rfl
  · have edge := edge_iff_mem_bases.2 old
    have below := step.not_reaches_of_edge edge
    exact step.acyclic
      (.of_edge edge (reachesCycle_of_reopened step.toReopened builtins below cyclic))
  · exact step.acyclic_mixed
      (reachesCycle_of_reopened step.toReopened builtins step.apart cyclic)

/-- The newcomers of the included line come right behind the owner, in their own order. -/
theorem line_eq (step : env.Reincludes builtins decl mixed env') :
    ∃ old, line ⟨env, builtins⟩ decl.name = decl.name :: old ∧
      line ⟨env', builtins⟩ decl.name =
        decl.name :: ((line ⟨env, builtins⟩ mixed).filter (· ∉ old) ++ old) := by
  obtain ⟨entry, declared⟩ := Option.isSome_iff_exists.1 step.declared
  let parts := (heritage ⟨env, builtins⟩ entry).map fun link =>
    (link.role, line ⟨env, builtins⟩ link.target)
  have before : line ⟨env, builtins⟩ decl.name = assemble decl.name parts :=
    line_eq_assemble declared step.acyclic
  have roles : parts.map Prod.fst = (heritage ⟨env, builtins⟩ entry).map Link.role := by
    simp [parts, Function.comp_def]
  have first := superclass_first roles
  have included : ∀ part ∈ parts, part.1 ≠ .mixin .prepended := by
    intro part mem
    obtain ⟨link, linked, rfl⟩ := List.mem_map.1 mem
    exact PrependFree.role_ne step.free declared linked
  have after : line ⟨env', builtins⟩ decl.name =
      assemble decl.name (parts ++ [(.mixin .included, line ⟨env, builtins⟩ mixed)]) := by
    have kept : (heritage ⟨env, builtins⟩ entry).map (fun link =>
        (link.role, line ⟨env', builtins⟩ link.target)) = parts := by
      refine List.map_congr_left fun link linked => ?_
      have below := step.not_reaches_of_edge (edge_of_mem_heritage declared linked)
      rw [line_reopened step.toReopened builtins below]
    rw [line_eq_assemble (step.module?_eq declared) step.not_reachesCycle, step.heritage_eq,
      List.map_append, kept, List.map_singleton,
      line_reopened step.toReopened builtins step.apart]
  refine ⟨(assemble decl.name parts).tail, before.trans (assemble_eq_cons_tail first included), ?_⟩
  rw [after, assemble_append_included first included
    (nodup_line step.free step.itself step.acyclic_mixed)]

end Reincludes

end Environment

namespace Hierarchy

/-- Opened again to include another one, a class or module has the newcomers of the included line
right behind itself. Its own line and the included line stay as they were, the former within the new
line. Where the two lines agree, in that some line without repetition has both within it, the new
line keeps the order of the included one just when that one has all its newcomers before all that it
shares with the older line. -/
theorem inclusion_keeps_order_iff {env env' : Environment} {builtins : Builtins}
    {decl : ModuleDecl} {mixed : QualifiedName} (step : env.Reincludes builtins decl mixed env')
    {known later : Lineages} (grown : Grown ⟨env, builtins⟩ known)
    (grown' : Grown ⟨env', builtins⟩ later) :
    ∃ old line, let new := decl.name :: (line.filter (· ∉ old) ++ old)
      ((ancestors? ⟨env, builtins⟩ decl.name).run known).1 = some (decl.name :: old) ∧
      ((ancestors? ⟨env, builtins⟩ mixed).run known).1 = some line ∧
      ((ancestors? ⟨env', builtins⟩ decl.name).run later).1 = some new ∧
      ((ancestors? ⟨env', builtins⟩ mixed).run later).1 = some line ∧
      (decl.name :: old).Sublist new ∧
      ∀ common : List QualifiedName, common.Nodup → (decl.name :: old).Sublist common →
        line.Sublist common →
        (line.Sublist new ↔ ∃ fresh shared, line = fresh ++ shared ∧
          (∀ name ∈ fresh, name ∉ decl.name :: old) ∧
            ∀ name ∈ shared, name ∈ decl.name :: old) := by
  obtain ⟨old, before, after⟩ := step.line_eq
  have owner := grown.fst_ancestors?_eq_line step.declared step.acyclic
  have included := grown.fst_ancestors?_eq_line step.itself step.acyclic_mixed
  have owner' := grown'.fst_ancestors?_eq_line
    ((step.contains_modules_eq _).trans step.declared) step.not_reachesCycle
  have included' := grown'.fst_ancestors?_eq_line
    ((step.contains_modules_eq _).trans step.itself) fun cyclic =>
      step.acyclic_mixed (reachesCycle_of_reopened step.toReopened builtins step.apart cyclic)
  have strange : decl.name ∉ line ⟨env, builtins⟩ mixed := fun mem =>
    step.apart (grown.reaches_of_mem_ancestors? (Environment.normalize?_of_contains step.itself)
      included mem)
  refine ⟨old, line ⟨env, builtins⟩ mixed, owner.trans (congrArg some before), included,
    owner'.trans (congrArg some after),
    included'.trans (congrArg some (line_reopened step.toReopened builtins step.apart)), ?_,
    fun common nodup mine its => sublist_newcomers_iff strange nodup mine its⟩
  exact .cons_cons _ (List.sublist_append_right _ _)

end Hierarchy

/-! ## An example -/

namespace Environment

/-- The declaration of a module with includes. -/
def braidedModule (name : String) (includes : List String) : ModuleDecl :=
  ⟨⟨.root, name⟩, .ofModule [], includes.map fun mixin => ⟨.included, ⟨.root, mixin⟩⟩, none⟩

/-- Two modules, two more that include both of them in one order and in the other, and a module that
includes the first one. -/
def braidedDecls : List Declaration :=
  [("A", []), ("B", []), ("Y", ["A", "B"]), ("Z", ["B", "A"]), ("M", ["A"])].map
    fun (name, includes) => .ofModule (braidedModule name includes)

/-- The environment of `braidedDecls`. -/
def braided : Environment := (ofDeclarations braidedDecls).toOption.getD ∅

theorem built_braided : Built braidedDecls braided := .of_ofDeclarations rfl

/-- The environment of `braidedDecls` with the last module opened again to include another one. -/
def braidedWith (mixed : String) : Environment :=
  (braided.add (.ofModule (braidedModule "M" [mixed]))).toOption.getD ∅

/-- All edges lead to what is declared before. -/
theorem braided_lower : ∀ name ∈ braided.modules.keys,
    ∀ target ∈ Hierarchy.bases ⟨braided, .standard⟩ name,
      braided.modules.keys.idxOf target < braided.modules.keys.idxOf name := by
  decide +kernel

theorem acyclic_braided (name : QualifiedName) :
    ¬Hierarchy.ReachesCycle ⟨braided, .standard⟩ name :=
  Hierarchy.not_reachesCycle_of_rank _ braided_lower

/-- Nothing that is declared before the last module leads to it. -/
theorem apart_braided {name : QualifiedName} (before : braided.modules.keys.idxOf name < 4) :
    ¬Hierarchy.Reaches ⟨braided, .standard⟩ name ⟨.root, "M"⟩ := by
  intro reaches
  have low := Hierarchy.rank_le_of_reaches _ (fun other mem _ => braided_lower other mem) reaches
  have last : braided.modules.keys.idxOf ⟨.root, "M"⟩ = 4 := by decide +kernel
  omega

theorem reincludes_braided : braided.Reincludes .standard (braidedModule "M" ["Y"]) ⟨.root, "Y"⟩
    (braidedWith "Y") where
  declared := by decide +kernel
  added := rfl
  no_superclass := rfl
  mixins := rfl
  itself := by decide +kernel
  free := built_braided.prependFree (by decide)
  acyclic := acyclic_braided _
  acyclic_mixed := acyclic_braided _
  apart := apart_braided (by decide +kernel)

end Environment

namespace Hierarchy

/-- The newcomers come first in the included line, and its order is kept. -/
theorem inclusion_keeps_order_iff_braided :
    let a : QualifiedName := ⟨.root, "A"⟩
    let b : QualifiedName := ⟨.root, "B"⟩
    let m : QualifiedName := ⟨.root, "M"⟩
    let y : QualifiedName := ⟨.root, "Y"⟩
    let h : Hierarchy := ⟨.braided, .standard⟩
    let h' : Hierarchy := ⟨.braidedWith "Y", .standard⟩
    ((h.ancestors? m).run ∅).1 = some [m, a] ∧ ((h.ancestors? y).run ∅).1 = some [y, b, a] ∧
      ((h'.ancestors? m).run (h'.lineagesAfter [b])).1 = some [m, y, b, a] ∧
      [y, b, a].Sublist [m, y, b, a] := by
  intro a b m y h h'
  have mine : ((h.ancestors? m).run ∅).1 = some [m, a] := by decide +kernel
  have its : ((h.ancestors? y).run ∅).1 = some [y, b, a] := by decide +kernel
  obtain ⟨old, line, owner, included, owner', -, -, order⟩ :=
    inclusion_keeps_order_iff Environment.reincludes_braided .empty (h'.grown_lineagesAfter [b])
  obtain rfl : old = [a] := (List.cons.inj (Option.some.inj (owner.symm.trans mine))).2
  obtain rfl : line = [y, b, a] := Option.some.inj (included.symm.trans its)
  refine ⟨mine, its, owner', ?_⟩
  exact (order [m, y, b, a] (by decide) (by decide) (by decide)).2
    ⟨[y, b], [a], rfl, by decide, by decide⟩

/-- An inclusion that does not keep the order of the included line. There are only modules and only
includes, nothing is cyclic, and both old lines are within one line without repetition. -/
theorem inclusion_breaks_order :
    let a : QualifiedName := ⟨.root, "A"⟩
    let b : QualifiedName := ⟨.root, "B"⟩
    let m : QualifiedName := ⟨.root, "M"⟩
    let z : QualifiedName := ⟨.root, "Z"⟩
    let h : Hierarchy := ⟨.braided, .standard⟩
    let h' : Hierarchy := ⟨.braidedWith "Z", .standard⟩
    ((∀ entry ∈ h.environment.modules.entries, entry.2.kind = .moduleKind ∧
        ∀ mixin ∈ entry.2.mixins, mixin.form = .included) ∧
      (∀ name, ¬h.ReachesCycle name) ∧ ¬h.Reaches z m ∧
      h.environment.add (.ofModule (Environment.braidedModule "M" ["Z"])) = .ok h'.environment) ∧
      ((h.ancestors? m).run ∅).1 = some [m, a] ∧ ((h.ancestors? z).run ∅).1 = some [z, a, b] ∧
      ([m, z, a, b].Nodup ∧ [m, a].Sublist [m, z, a, b] ∧ [z, a, b].Sublist [m, z, a, b]) ∧
      ((h'.ancestors? m).run ∅).1 = some [m, z, b, a] ∧ ¬[z, a, b].Sublist [m, z, b, a] := by
  intro a b m z h h'
  refine ⟨⟨by decide +kernel, Environment.acyclic_braided,
    Environment.apart_braided (by decide +kernel), rfl⟩, by decide +kernel, by decide +kernel,
    by decide, by decide +kernel, by decide⟩

end Hierarchy

end NameResolution
