import Mathlib.Data.List.Nodup
import NameResolution.Ancestry.Visiting
import NameResolution.Proofs.Ancestry.Descent
import NameResolution.Proofs.Environment.Built

/-!
# How deep calls for lineages nest

Calls that work out lineages in one shared state come back, whatever is known and however cyclic the
ancestry is. A call enters its class or module, so that only declared ones that are not entered yet
can be entered below it, and it is known once the call is over. Hence the nesting is bounded by the
number of classes and modules, and the mixins of each are gone through once at most.

## Main definitions

* `Hierarchy.Enterable` — the classes and modules that are not being worked out.
* `Hierarchy.Expansion` — the mixins that were gone through belong to what became known.
* `Hierarchy.Retraces` — calls in a shared state come to what a computation comes to.

## Main statements

* `Hierarchy.retraces_visit` — a call that may nest deep enough.
* `Hierarchy.visits_bounded` — how deep calls nest, what they leave behind, and how often mixins are
  gone through.
-/

namespace NameResolution

namespace Hierarchy

variable {h : Hierarchy} {depth : Nat} {unvisited : List QualifiedName} {name : QualifiedName}
  {state middle later : Visiting}

/-! ## One call -/

/-- The lineages of the targets of some links, each with the role of its link. -/
def visitParts (h : Hierarchy) (depth : Nat) (links : List Link) :
    StateT Visiting Option (List (Role × List QualifiedName)) :=
  links.mapM fun link => Prod.mk link.role <$> h.visit depth link.target

theorem run_visit_of_known {line : List QualifiedName}
    (found : state.known.find? name = some line) :
    (h.visit (depth + 1) name).run state = some (line, state) := by
  rw [visit]
  simp [found]

theorem run_visit_of_barred (fresh : state.known.find? name = none)
    (barred : h.environment.module? name = none ∨ name ∈ state.pending) :
    (h.visit (depth + 1) name).run state = some ([], state) := by
  rw [visit]
  cases declared : h.environment.module? name with
  | none => simp [fresh]
  | some entry =>
    have visited : name ∈ state.pending := by simpa [declared] using barred
    simp [fresh, visited]

theorem run_visit_of_entered {entry : ModuleEntry}
    {inherited mixed : List (Role × List QualifiedName)} (fresh : state.known.find? name = none)
    (declared : h.environment.module? name = some entry) (enterable : name ∉ state.pending)
    (first : (h.visitParts depth (h.superclassLinks entry)).run (state.enter name) =
      some (inherited, middle))
    (rest : (h.visitParts depth (h.mixinLinks entry)).run (middle.expand name) =
      some (mixed, later)) :
    (h.visit (depth + 1) name).run state =
      some (assemble name (inherited ++ mixed),
        later.leave name (assemble name (inherited ++ mixed))) := by
  rw [visitParts] at first rest
  rw [visit]
  simp [fresh, declared, enterable, first, rest]

/-! ## What can be entered -/

/-- The classes and modules in `unvisited` are those that are not being worked out. -/
structure Enterable (h : Hierarchy) (unvisited pending : List QualifiedName) : Prop where
  distinct : unvisited.Nodup
  mem_iff : ∀ other, (h.environment.module? other).isSome → (other ∈ unvisited ↔ other ∉ pending)

namespace Enterable

variable {pending : List QualifiedName}

theorem enter (enterable : h.Enterable unvisited pending) (name : QualifiedName) :
    h.Enterable (unvisited.erase name) (name :: pending) where
  distinct := enterable.distinct.erase name
  mem_iff other declared := by
    rw [enterable.distinct.mem_erase_iff, enterable.mem_iff other declared, List.mem_cons, not_or]

/-- Whatever is being worked out, the declared classes and modules beside it can be entered. -/
theorem others (h : Hierarchy) (pending : List QualifiedName) :
    h.Enterable (h.environment.modules.keys.filter (· ∉ pending)) pending where
  distinct := h.environment.modules.nodup_keys.filter _
  mem_iff other declared := by simp [(OrderedMap.mem_keys_iff _ _).2 declared]

theorem keys (h : Hierarchy) : h.Enterable h.environment.modules.keys [] where
  distinct := h.environment.modules.nodup_keys
  mem_iff other declared := by simp [(OrderedMap.mem_keys_iff _ _).2 declared]

end Enterable

/-! ## What is gone through -/

/-- The mixins of `new` were gone through, once each, while the known lineages grew. All of these
classes and modules are declared, and were unknown before and known afterwards. -/
structure Expansion (h : Hierarchy) (known later : Lineages) (new : List QualifiedName) : Prop where
  keeps : known.GrowsTo later
  nodup : new.Nodup
  fresh : ∀ name ∈ new, known.find? name = none
  stored : ∀ name ∈ new, (later.find? name).isSome
  declared : ∀ name ∈ new, (h.environment.module? name).isSome

namespace Expansion

variable {known middle later : Lineages} {new new' : List QualifiedName}

theorem nothing (h : Hierarchy) (known : Lineages) : h.Expansion known known [] :=
  ⟨.refl known, List.nodup_nil, nofun, nofun, nofun⟩

theorem append (first : h.Expansion known middle new) (second : h.Expansion middle later new') :
    h.Expansion known later (new ++ new') := by
  refine ⟨first.keeps.trans second.keeps, ?nodup, ?fresh, ?stored, ?declared⟩
  case nodup =>
    refine List.nodup_append'.2 ⟨first.nodup, second.nodup, fun name mem mem' => ?_⟩
    simpa [second.fresh name mem'] using first.stored name mem
  case fresh =>
    refine List.forall_mem_append.2 ⟨first.fresh, fun name mem => ?_⟩
    refine Option.eq_none_iff_forall_ne_some.2 fun line found => ?_
    simpa [second.fresh name mem] using first.keeps name line found
  case stored =>
    exact List.forall_mem_append.2
      ⟨fun name mem => second.keeps.isSome (first.stored name mem), second.stored⟩
  case declared => exact List.forall_mem_append.2 ⟨first.declared, second.declared⟩

theorem perm (expansion : h.Expansion known later new) (same : new.Perm new') :
    h.Expansion known later new' where
  keeps := expansion.keeps
  nodup := same.nodup_iff.1 expansion.nodup
  fresh name mem := expansion.fresh name (same.mem_iff.2 mem)
  stored name mem := expansion.stored name (same.mem_iff.2 mem)
  declared name mem := expansion.declared name (same.mem_iff.2 mem)

/-- A class or module whose line is stored at the end was gone through as well. -/
theorem store (expansion : h.Expansion known later new)
    (declared : (h.environment.module? name).isSome) (fresh : known.find? name = none)
    (still_fresh : later.find? name = none) (line : List QualifiedName) :
    h.Expansion known (later.insertIfNew name line) (name :: new) := by
  have grows := OrderedMap.GrowsTo.insertIfNew later name line
  refine ⟨expansion.keeps.trans grows, ?nodup, ?fresh, ?stored, ?declared⟩
  case nodup =>
    refine List.nodup_cons.2 ⟨fun mem => ?_, expansion.nodup⟩
    simpa [still_fresh] using expansion.stored name mem
  case fresh => exact List.forall_mem_cons.2 ⟨fresh, expansion.fresh⟩
  case stored =>
    refine List.forall_mem_cons.2 ⟨by simp [OrderedMap.find?_insertIfNew], fun name mem => ?_⟩
    exact grows.isSome (expansion.stored name mem)
  case declared => exact List.forall_mem_cons.2 ⟨declared, expansion.declared⟩

end Expansion

/-! ## What a computation comes to -/

/-- From `state`, calls in a shared state come back: with the result that `plain` gives for the
known lineages and with the same lineages known, with nothing more or less being worked out, and
with the mixins gone through of what became known. -/
def Retraces {α : Type} (h : Hierarchy) (calls : StateT Visiting Option α)
    (plain : StateM Lineages α) (state : Visiting) : Prop :=
  ∃ result later new, plain.run state.known = (result, later) ∧
    h.Expansion state.known later new ∧
    calls.run state = some (result, ⟨later, state.pending, state.expanded ++ new⟩)

namespace Retraces

variable {α β : Type} {calls : StateT Visiting Option α} {plain : StateM Lineages α}

theorem unchanged {result : α} (ran : calls.run state = some (result, state))
    (computed : plain.run state.known = (result, state.known)) : h.Retraces calls plain state := by
  exact ⟨result, state.known, [], computed, .nothing h state.known, by rw [ran, List.append_nil]⟩

theorem pure (h : Hierarchy) (a : α) (state : Visiting) : h.Retraces (pure a) (pure a) state :=
  .unchanged rfl rfl

theorem bind {next : α → StateT Visiting Option β} {next' : α → StateM Lineages β}
    (first : h.Retraces calls plain state)
    (rest : ∀ a middle, middle.pending = state.pending → h.Retraces (next a) (next' a) middle) :
    h.Retraces (calls >>= next) (plain >>= next') state := by
  obtain ⟨a, middle, new, computed, expansion, ran⟩ := first
  obtain ⟨b, later, new', computed', expansion', ran'⟩ :=
    rest a ⟨middle, state.pending, state.expanded ++ new⟩ rfl
  refine ⟨b, later, new ++ new', ?_, expansion.append expansion', ?_⟩
  · rw [StateT.run_bind, computed]
    exact computed'
  · rw [StateT.run_bind, ran, ← List.append_assoc]
    exact ran'

theorem mapM {f : β → StateT Visiting Option α} {g : β → StateM Lineages α} {bs : List β}
    (each : ∀ b middle, middle.pending = state.pending → h.Retraces (f b) (g b) middle) :
    h.Retraces (bs.mapM f) (bs.mapM g) state := by
  induction bs generalizing state with
  | nil => exact pure h [] state
  | cons b bs ih =>
    rw [List.mapM_cons, List.mapM_cons]
    refine (each b state rfl).bind fun a middle same => ?_
    refine (ih fun b later same' => each b later (same'.trans same)).bind fun as last _ => ?_
    exact pure h (a :: as) last

end Retraces

theorem retraces_visitParts (links : List Link)
    (each : ∀ name middle, middle.pending = state.pending →
      h.Retraces (h.visit depth name) (h.lineage unvisited name) middle) :
    h.Retraces (h.visitParts depth links) (h.lineParts unvisited links) state := by
  refine .mapM fun link middle same => ?_
  rw [map_eq_pure_bind]
  exact (each link.target middle same).bind fun line last _ => .pure h (link.role, line) last

/-- A call that goes through the links of its class or module comes back when the calls below it
do. -/
theorem retraces_visit_of_entered {entry : ModuleEntry} (fresh : state.known.find? name = none)
    (declared : h.environment.module? name = some entry) (nodup : unvisited.Nodup)
    (enters : name ∈ unvisited) (enters' : name ∉ state.pending)
    (below : ∀ other middle, middle.pending = name :: state.pending →
      h.Retraces (h.visit depth other) (h.lineage (unvisited.erase name) other) middle) :
    h.Retraces (h.visit (depth + 1) name) (h.lineage unvisited name) state := by
  have parts (links : List Link) (middle : Visiting)
      (same : middle.pending = name :: state.pending) :
      h.Retraces (h.visitParts depth links) (h.lineParts (unvisited.erase name) links) middle :=
    retraces_visitParts links fun other last same' => below other last (same'.trans same)
  obtain ⟨inherited, middle, new, computed, expansion, ran⟩ :=
    parts (h.superclassLinks entry) (state.enter name) rfl
  obtain ⟨mixed, later, new', computed', expansion', ran'⟩ := parts (h.mixinLinks entry)
    (Visiting.expand ⟨middle, name :: state.pending, state.expanded ++ new⟩ name) rfl
  have all : (h.lineParts (unvisited.erase name) (h.heritage entry)).run state.known =
      (inherited ++ mixed, later) := run_lineParts_append computed computed'
  have growth := h.growth_both.2 (unvisited.erase name) (h.heritage entry) state.known
  -- Nothing below enters `name` again, so it is still unknown when its line is stored.
  have still_fresh := growth.find?_eq_none fresh nodup.not_mem_erase
  rw [all] at still_fresh
  have expansion_all := (expansion.append expansion').store (by simp [declared]) fresh still_fresh
    (assemble name (inherited ++ mixed))
  refine ⟨assemble name (inherited ++ mixed), _, new ++ name :: new', ?_,
    expansion_all.perm List.perm_middle.symm, ?_⟩
  · rw [run_lineage_of_entered fresh declared enters, all]
  · rw [run_visit_of_entered fresh declared enters' ran ran']
    simp [Visiting.leave, Visiting.expand]

/-- A call works out what the plain computation does, when it may nest deeper than there are classes
and modules that are not being worked out. -/
theorem retraces_visit (enterable : h.Enterable unvisited state.pending)
    (deep : unvisited.length < depth) (name : QualifiedName) :
    h.Retraces (h.visit depth name) (h.lineage unvisited name) state := by
  induction depth generalizing unvisited name state with
  | zero => omega
  | succ depth ih =>
    cases found : state.known.find? name with
    | some line => exact .unchanged (run_visit_of_known found) (run_lineage_of_known found)
    | none =>
      cases declared : h.environment.module? name with
      | none =>
        exact .unchanged (run_visit_of_barred found (.inl declared))
          (run_lineage_of_barred found (.inl declared))
      | some entry =>
        have enters_iff := enterable.mem_iff name (by simp [declared])
        by_cases entered : name ∈ state.pending
        · have barred : name ∉ unvisited := fun mem => enters_iff.1 mem entered
          exact .unchanged (run_visit_of_barred found (.inr entered))
            (run_lineage_of_barred found (.inr barred))
        · have enters : name ∈ unvisited := enters_iff.2 entered
          have fewer : (unvisited.erase name).length < depth := by
            rw [List.length_erase_of_mem enters]
            have := List.length_pos_of_mem enters
            omega
          exact retraces_visit_of_entered found declared enterable.distinct enters entered
            fun other middle same => ih (same ▸ enterable.enter name) fewer other

/-! ## Requests -/

/-- A request is answered as by the plain computation, when calls may nest one deeper than there are
classes and modules. -/
theorem retraces_visitAncestors? (idle : state.pending = []) (name : QualifiedName) :
    h.Retraces (h.visitAncestors? (h.environment.modules.size + 1) name) (h.ancestors? name)
      state := by
  rw [visitAncestors?, ancestors?]
  cases h.environment.normalize? name with
  | none => exact .pure h none state
  | some target =>
    have enterable : h.Enterable h.environment.modules.keys state.pending := idle ▸ .keys h
    have deep : h.environment.modules.keys.length < h.environment.modules.size + 1 := by simp
    have reset : { state with pending := [] } = state := by rw [← idle]
    obtain ⟨line, later, new, computed, expansion, ran⟩ := retraces_visit enterable deep target
    refine ⟨some line, later, new, ?_, expansion, ?_⟩
    · simp [computed]
      rfl
    · simp [reset, ran]

/-- Calls that work out lineages come back, whatever is known, whatever is being worked out and
however cyclic the ancestry is. They nest at most one deeper than there are classes and modules
that are not being worked out, and leave the ones that are as they were. Over any number of requests
the mixins of each class or module are gone through once at most, and only if its lineage was not
known at the start. The requests are answered as by the plain computation. -/
theorem visits_bounded (h : Hierarchy) :
    (∀ depth name (state : Visiting),
      (h.environment.modules.keys.filter (· ∉ state.pending)).length < depth →
        ∃ line later, (h.visit depth name).run state = some (line, later) ∧
          later.pending = state.pending) ∧
    ∀ (known : Lineages) (names : List QualifiedName), ∃ answers later,
      (names.mapM (h.visitAncestors? (h.environment.modules.size + 1))).run (.idle known) =
        some (answers, later) ∧
      (names.mapM h.ancestors?).run known = (answers, later.known) ∧ later.pending = [] ∧
      later.expanded.Nodup ∧ ∀ name ∈ later.expanded,
        (h.environment.module? name).isSome ∧ known.find? name = none := by
  refine ⟨fun depth name state deep => ?_, fun known names => ?_⟩
  · obtain ⟨line, later, new, -, -, ran⟩ := retraces_visit (Enterable.others h _) deep name
    exact ⟨line, _, ran, rfl⟩
  · have answered : h.Retraces (names.mapM (h.visitAncestors? (h.environment.modules.size + 1)))
        (names.mapM h.ancestors?) (.idle known) :=
      .mapM fun name middle idle => retraces_visitAncestors? idle name
    obtain ⟨answers, later, new, computed, expansion, ran⟩ := answered
    exact ⟨answers, _, ran, computed, rfl, expansion.nodup,
      fun name mem => ⟨expansion.declared name mem, expansion.fresh name mem⟩⟩

/-- Two classes that inherit from each other take calls nested three deep, the last of which is cut
short. Asked for again, they are not gone through again. -/
theorem visits_bounded_entangled :
    let a := Namespace.root.member "A"
    let b := Namespace.root.member "B"
    let c := Namespace.root.member "C"
    let m := Namespace.root.member "M"
    let h : Hierarchy := ⟨.entangled, .standard⟩
    (h.visit 2 a).run (.idle ∅) = none ∧
      (∃ line later, (h.visit 4 b).run ⟨∅, [a], []⟩ = some (line, later) ∧ later.pending = [a]) ∧
      ∃ later, ([a, b, c, a].mapM (h.visitAncestors? 5)).run (.idle ∅) =
          some ([some [a, b], some [b], some [c, m], some [a, b]], later) ∧
        later.pending = [] ∧ later.expanded = [b, a, c, m] ∧ later.expanded.Nodup := by
  intro a b c m h
  obtain ⟨each, requests⟩ := visits_bounded h
  obtain ⟨answers, later, ran, -, idle, once, -⟩ := requests ∅ [a, b, c, a]
  have found : (([a, b, c, a].mapM (h.visitAncestors? 5)).run (.idle ∅)).map
      (fun result => (result.1, result.2.expanded)) =
        some ([some [a, b], some [b], some [c, m], some [a, b]], [b, a, c, m]) := by
    decide +kernel
  have size : h.environment.modules.size + 1 = 5 := by decide +kernel
  rw [size] at ran
  rw [ran] at found
  obtain ⟨rfl, expanded⟩ := Prod.mk.inj (Option.some.inj found)
  have shallow : ((h.visit 2 a).run (.idle ∅)).isNone := by decide +kernel
  exact ⟨Option.isNone_iff_eq_none.1 shallow, each 4 b ⟨∅, [a], []⟩ (by decide +kernel), later, ran,
    idle, expanded, once⟩

end Hierarchy

end NameResolution
