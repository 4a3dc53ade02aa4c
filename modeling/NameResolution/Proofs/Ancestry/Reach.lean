import NameResolution.Proofs.Ancestry.Acyclic
import NameResolution.Proofs.Ancestry.Remembered

/-!
# What lineages reach

Where the ancestry is cyclic, a lineage that is worked out below another one is cut at what is
still being worked out. The outermost lineage misses nothing all the same: whatever becomes known
on the way is in it, and what is known is closed under edges once the request is answered.

## Main definitions

* `Hierarchy.Reaches` — a chain of edges leads from one class or module to another.
* `Hierarchy.ClosedBut` — what is known is closed under edges, but for what is being worked out.
* `Hierarchy.Explored` — what a computation leaves behind.

## Main statements

* `Hierarchy.isSome_ancestors?_iff` — a request makes known what its class or module reaches.
* `Hierarchy.ancestors_cover_reach` — the first lineage is complete, and none invents anything.
-/

namespace NameResolution

namespace Hierarchy

open Relation

variable {h : Hierarchy} {unvisited : List QualifiedName} {name target other : QualifiedName}
  {known middle later : Lineages} {parts : List (Role × List QualifiedName)}

/-- Some chain of edges, possibly an empty one, leads from one class or module to another. -/
abbrev Reaches (h : Hierarchy) : QualifiedName → QualifiedName → Prop := ReflTransGen h.Edge

theorem Edge.declared (edge : h.Edge name target) : (h.environment.module? target).isSome := by
  cases edge with
  | superclass _ _ leads => exact Environment.contains_of_normalize? leads
  | mixin _ _ leads => exact Environment.contains_of_normalize? leads

theorem Reaches.declared (reaches : h.Reaches name other)
    (declared : (h.environment.module? name).isSome) : (h.environment.module? other).isSome := by
  rcases ReflTransGen.cases_tail reaches with rfl | ⟨_, _, edge⟩
  · exact declared
  · exact edge.declared

/-! ## Nothing is invented -/

/-- Every known lineage stays within what its owner reaches. -/
def Within (h : Hierarchy) (known : Lineages) : Prop :=
  ∀ name line, known.find? name = some line → ∀ other ∈ line, h.Reaches name other

theorem Within.assemble {entry : ModuleEntry} (within : h.Within known)
    (declared : h.environment.module? name = some entry)
    (supplied : List.Forall₂ (Supplied known) (h.heritage entry) parts)
    (mem : other ∈ assemble name parts) : h.Reaches name other := by
  rcases (mem_assemble_iff (superclass_first (roles_of_supplied supplied))).1 mem with
    rfl | ⟨part, mem, stands⟩
  · exact .refl
  · obtain ⟨link, linked, given⟩ := exists_link_of_supplied supplied mem
    exact .head (edge_of_mem_heritage declared linked)
      (within _ _ (given.found stands) other stands)

theorem Grown.within (grown : h.Grown known) : h.Within known := by
  refine grown.rule (fun _ _ found => nomatch found) ?_
  intro known name entry parts fresh declared supplied within other line found
  rcases OrderedMap.find?_insertIfNew_cases found with before | ⟨rfl, rfl⟩
  · exact within other line before
  · exact fun _ => within.assemble declared supplied

/-! ## Nothing is lost -/

/-- Edges from what is known lead to what is known, or to what is still being worked out. -/
def ClosedBut (h : Hierarchy) (unvisited : List QualifiedName) (known : Lineages) : Prop :=
  ∀ name target, (known.find? name).isSome → h.Edge name target →
    (known.find? target).isSome ∨ target ∉ unvisited

theorem ClosedBut.erase (closed : h.ClosedBut unvisited known) (name : QualifiedName) :
    h.ClosedBut (unvisited.erase name) known := by
  intro source target found edge
  refine (closed source target found edge).imp_right fun visited mem => ?_
  exact visited (List.mem_of_mem_erase mem)

/-- What is left behind once the lineages of `targets` were worked out and `line` was returned. -/
structure Explored (h : Hierarchy) (unvisited : List QualifiedName) (known later : Lineages)
    (targets line : List QualifiedName) : Prop where
  keeps : known.GrowsTo later
  closed : h.ClosedBut unvisited later
  entered : ∀ target ∈ targets, (h.environment.module? target).isSome →
    (later.find? target).isSome ∨ target ∉ unvisited
  /-- Whatever became known on the way is returned. -/
  covers : ∀ other, (later.find? other).isSome → (known.find? other).isSome ∨ other ∈ line

namespace Explored

variable {targets targets' line line' : List QualifiedName}

theorem unchanged (closed : h.ClosedBut unvisited known)
    (entered : ∀ target ∈ targets, (h.environment.module? target).isSome →
      (known.find? target).isSome ∨ target ∉ unvisited) :
    h.Explored unvisited known known targets line :=
  ⟨.refl known, closed, entered, fun _ => .inl⟩

theorem append (first : h.Explored unvisited known middle targets line)
    (second : h.Explored unvisited middle later targets' line') :
    h.Explored unvisited known later (targets ++ targets') (line ++ line') := by
  refine ⟨first.keeps.trans second.keeps, second.closed, fun target mem declared => ?_,
    fun other found => ?_⟩
  · rcases List.mem_append.1 mem with mem | mem
    · exact (first.entered target mem declared).imp_left second.keeps.isSome
    · exact second.entered target mem declared
  · rcases second.covers other found with before | here
    · exact (first.covers other before).imp_right (List.mem_append_left _)
    · exact .inr (List.mem_append_right _ here)

/-- The line assembled for a class or module covers what was worked out for its links. -/
theorem enter {entry : ModuleEntry} (declared : h.environment.module? name = some entry)
    (roles : parts.map Prod.fst = (h.heritage entry).map Link.role)
    (explored : h.Explored (unvisited.erase name) known later
      ((h.heritage entry).map Link.target) (parts.flatMap Prod.snd)) :
    h.Explored unvisited known (later.insertIfNew name (assemble name parts)) [name]
      (assemble name parts) := by
  have grows := OrderedMap.GrowsTo.insertIfNew later name (assemble name parts)
  have stored : ((later.insertIfNew name (assemble name parts)).find? name).isSome := by
    simp [OrderedMap.find?_insertIfNew]
  refine ⟨explored.keeps.trans grows, fun source target found edge => ?_, fun target mem _ => ?_,
    fun other found => ?_⟩
  · have led : (later.find? target).isSome ∨ target ∉ unvisited.erase name := by
      by_cases here : source = name
      · subst here
        refine explored.entered target ?_ edge.declared
        simpa [bases, declared] using edge_iff_mem_bases.1 edge
      · rw [OrderedMap.find?_insertIfNew, if_neg here] at found
        exact explored.closed source target found edge
    -- The owner was barred below, and is known from now on.
    by_cases back : target = name
    · exact .inl (back ▸ stored)
    · exact led.imp grows.isSome fun visited mem => visited ((List.mem_erase_of_ne back).2 mem)
  · exact .inl (List.mem_singleton.1 mem ▸ stored)
  · rw [mem_assemble_iff (superclass_first roles)]
    by_cases here : other = name
    · exact .inr (.inl here)
    · rw [OrderedMap.find?_insertIfNew, if_neg here] at found
      exact (explored.covers other found).imp_right fun mem =>
        .inr (by simpa using List.mem_flatMap.1 mem)

end Explored

theorem explored_lineage (closed : h.ClosedBut unvisited known) (name : QualifiedName) :
    h.Explored unvisited known ((h.lineage unvisited name).run known).2 [name]
      ((h.lineage unvisited name).run known).1 := by
  revert closed
  refine (lineage_rule (h := h)
    (P := fun unvisited name known line later => h.ClosedBut unvisited known →
      h.Explored unvisited known later [name] line)
    (Q := fun unvisited links known parts later => h.ClosedBut unvisited known →
      h.Explored unvisited known later (links.map Link.target) (parts.flatMap Prod.snd) ∧
        parts.map Prod.fst = links.map Link.role)
    ?recalled ?barred ?entered ?nil ?cons).1 unvisited name known
  case recalled =>
    intro unvisited name known line found closed
    refine .unchanged closed fun target mem _ => .inl ?_
    simp [List.mem_singleton.1 mem, found]
  case barred =>
    intro unvisited name known _ barred closed
    refine .unchanged closed fun target mem declared => .inr ?_
    obtain rfl := List.mem_singleton.1 mem
    exact barred.resolve_left fun undeclared => by simp [undeclared] at declared
  case entered =>
    intro unvisited name known entry parts later _ declared _ computed closed
    obtain ⟨explored, roles⟩ := computed (closed.erase name)
    exact explored.enter declared roles
  case nil => exact fun closed => ⟨.unchanged closed nofun, rfl⟩
  case cons =>
    intro unvisited link links known line middle parts later first rest closed
    have explored := first closed
    obtain ⟨explored', roles⟩ := rest explored.closed
    exact ⟨explored.append explored', by rw [List.map_cons, roles, List.map_cons]⟩

/-! ## Requests -/

theorem Grown.closedBut (grown : h.Grown known) :
    h.ClosedBut h.environment.modules.keys known := by
  induction grown with
  | empty => exact fun _ _ found => nomatch found
  | @request known grown name ih =>
    cases leads : h.environment.normalize? name with
    | none =>
      rw [run_ancestors?_of_none leads]
      exact ih
    | some target =>
      rw [run_ancestors?_of_some leads]
      exact (explored_lineage ih target).closed

/-- With nothing being worked out, all that a known class or module reaches is known. -/
theorem Grown.isSome_of_reaches (grown : h.Grown known) (found : (known.find? name).isSome)
    (reaches : h.Reaches name other) : (known.find? other).isSome := by
  induction reaches with
  | refl => exact found
  | @tail source target _ edge ih =>
    refine (grown.closedBut source target ih edge).resolve_right fun visited => visited ?_
    exact (OrderedMap.mem_keys_iff _ _).2 edge.declared

/-- The line that a request is answered with stays within what is reached. -/
theorem Grown.reaches_of_mem_ancestors? (grown : h.Grown known) {line : List QualifiedName}
    (leads : h.environment.normalize? name = some target)
    (answered : ((h.ancestors? name).run known).1 = some line) (mem : other ∈ line) :
    h.Reaches target other := by
  rw [fst_ancestors?, leads, Option.bind_some] at answered
  exact (grown.request name).within target line answered other mem

/-- A request makes known what its class or module reaches, and nothing else. -/
theorem isSome_ancestors?_iff (grown : h.Grown known)
    (leads : h.environment.normalize? name = some target) :
    (((h.ancestors? name).run known).2.find? other).isSome ↔
      (known.find? other).isSome ∨ h.Reaches target other := by
  constructor
  · intro found
    have explored := explored_lineage grown.closedBut target
    rw [run_ancestors?_of_some leads] at found
    refine (explored.covers other found).imp_right fun mem => ?_
    refine grown.reaches_of_mem_ancestors? leads ?_ mem
    rw [run_ancestors?_of_some leads]
  · rintro (before | reaches)
    · exact (h.growsTo_ancestors? name known).isSome before
    · exact (grown.request name).isSome_of_reaches (isSome_ancestors? leads known) reaches

theorem isSome_requests_iff (grown : h.Grown known) (names : List QualifiedName) :
    ((((names.mapM h.ancestors?).run known).2).find? other).isSome ↔
      (known.find? other).isSome ∨
        ∃ name ∈ names, ∃ target, h.environment.normalize? name = some target ∧
          h.Reaches target other := by
  induction names generalizing known with
  | nil => simp; rfl
  | cons name names ih =>
    rw [run_requests_cons, ih (grown.request name)]
    simp only [List.mem_cons, exists_eq_or_imp, ← or_assoc]
    refine or_congr_left ?_
    cases leads : h.environment.normalize? name with
    | none => simp [run_ancestors?_of_none leads]
    | some target => simp [isSome_ancestors?_iff grown leads]

/-- Asked for first, the lineage of a class or module consists of all that it reaches. After any
requests, lineages are known of just what those reach, and no request is ever answered with a class
or module that is not reached. -/
theorem ancestors_cover_reach (h : Hierarchy) :
    (∀ name, (h.environment.module? name).isSome →
      ∃ line, ((h.ancestors? name).run ∅).1 = some line ∧
        ∀ other, other ∈ line ↔ (h.environment.module? other).isSome ∧ h.Reaches name other) ∧
    (∀ names other, other ∈ (h.lineagesAfter names).keys ↔
      ∃ name ∈ names, ∃ target, h.environment.normalize? name = some target ∧
        h.Reaches target other) ∧
    ∀ names name line, ((h.ancestors? name).run (h.lineagesAfter names)).1 = some line →
      ∃ target, h.environment.normalize? name = some target ∧
        ∀ other ∈ line, h.Reaches target other := by
  refine ⟨fun name declared => ?_, fun names other => ?_, fun names name line answered => ?_⟩
  · have itself := Environment.normalize?_of_contains declared
    have answered := congrArg Prod.fst (run_ancestors?_of_some itself ∅)
    refine ⟨_, answered, fun other => ⟨fun mem => ?_, ?_⟩⟩
    · have reaches := Grown.empty.reaches_of_mem_ancestors? itself answered mem
      exact ⟨reaches.declared declared, reaches⟩
    · rintro ⟨-, reaches⟩
      have found := (isSome_ancestors?_iff Grown.empty itself).2 (.inr reaches)
      rw [run_ancestors?_of_some itself] at found
      exact ((explored_lineage Grown.empty.closedBut name).covers other found).resolve_left nofun
  · rw [OrderedMap.mem_keys_iff, lineagesAfter, isSome_requests_iff .empty]
    exact or_iff_right nofun
  · cases leads : h.environment.normalize? name with
    | none =>
      rw [run_ancestors?_of_none leads] at answered
      cases answered
    | some target =>
      exact ⟨target, rfl, fun other =>
        (h.grown_lineagesAfter names).reaches_of_mem_ancestors? leads answered⟩

/-- Two classes that inherit from each other reach the same, but only the lineage that is asked for
first has both. -/
theorem ancestors_cover_reach_entangled :
    let a := Namespace.root.member "A"
    let b := Namespace.root.member "B"
    let h : Hierarchy := ⟨.entangled, .standard⟩
    (∀ other, other ∈ [a, b] ↔ (h.environment.module? other).isSome ∧ h.Reaches a other) ∧
      h.Reaches b a ∧ a ∈ (h.lineagesAfter [b]).keys ∧
      ((h.ancestors? a).run ∅).1 = some [a, b] ∧
      ((h.ancestors? b).run (h.lineagesAfter [a])).1 = some [b] := by
  intro a b h
  obtain ⟨complete, known, -⟩ := ancestors_cover_reach h
  have first : ((h.ancestors? a).run ∅).1 = some [a, b] := by decide +kernel
  have first' : ((h.ancestors? b).run ∅).1 = some [b, a] := by decide +kernel
  have second : ((h.ancestors? b).run (h.lineagesAfter [a])).1 = some [b] := by decide +kernel
  obtain ⟨line, answered, reached⟩ := complete a (by decide +kernel)
  obtain rfl : [a, b] = line := Option.some.inj (first.symm.trans answered)
  obtain ⟨line, answered, reached'⟩ := complete b (by decide +kernel)
  obtain rfl : [b, a] = line := Option.some.inj (first'.symm.trans answered)
  have back : h.Reaches b a := ((reached' a).1 (by simp)).2
  have itself : h.environment.normalize? b = some b := by decide +kernel
  exact ⟨reached, back, (known [b] a).2 ⟨b, by simp, b, itself, back⟩, first, second⟩

end Hierarchy

end NameResolution
