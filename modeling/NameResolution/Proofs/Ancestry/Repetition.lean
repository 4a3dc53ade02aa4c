import NameResolution.Proofs.Ancestry.Reopening
import NameResolution.Proofs.Lists

/-!
# Opening a class or module again with nothing new

A class or module that is opened again to mix in what it mixes in already, each in the same form,
keeps its lineage. Its own line has every repeated part in its place by then, whatever was placed in
between. Where the ancestry is cyclic, a link that is followed again is cut again, or finds the line
that is remembered since. So every computation of lineages does the same as before.

## Main definitions

* `Slots.Absorbs` — a line has nothing to add where it would be placed.
* `Environment.Restates` — a class or module is opened again with nothing new.

## Main statements

* `assemble_append_repeats` — parts that come again change no line.
* `Hierarchy.run_lineage_again` — a lineage that is worked out again is the same.
* `Environment.Restates.ancestors?_eq` — requests for ancestors do the same as before.
-/

namespace NameResolution

/-! ## Parts that come again -/

namespace Slots

variable {slots : Slots} {part : Role × List QualifiedName}
  {parts : List (Role × List QualifiedName)}

/-- The line of a mixin has nothing to add where its form would place it. -/
def Absorbs (slots : Slots) : Role × List QualifiedName → Prop
  | (.superclass, _) => False
  | (.mixin .prepended, line) => ∀ name ∈ line, name ∈ slots.before
  | (.mixin .included, line) => ∀ name ∈ line, slots.Has name

theorem insertLine_eq_self {line : List QualifiedName} (stands : ∀ name ∈ line, slots.Has name) :
    slots.insertLine line = slots := by
  induction line with
  | nil => rfl
  | cons first rest ih =>
    obtain ⟨first_stands, rest_stands⟩ := List.forall_mem_cons.1 stands
    rw [insertLine_cons, ih rest_stands, insertIncluded, if_pos (contains_iff_has.2 first_stands)]

namespace Absorbs

theorem place_eq_self (absorbs : slots.Absorbs part) : slots.place part = slots := by
  obtain ⟨role, line⟩ := part
  cases role with
  | superclass => exact absorbs.elim
  | mixin form =>
    cases form with
    | prepended =>
      have nothing_new : line.all slots.before.contains = true := by
        simpa [Absorbs] using absorbs
      rw [place, prepend, if_pos nothing_new]
    | included => exact insertLine_eq_self absorbs

/-- What is placed is absorbed from then on. -/
theorem of_place (slots : Slots) (form : MixinForm) (line : List QualifiedName) :
    (slots.place (.mixin form, line)).Absorbs (.mixin form, line) := by
  cases form with
  | prepended => exact fun name mem => mem_before_prepend_iff.2 (.inr mem)
  | included => exact fun name mem => has_insertLine_iff.2 (.inr mem)

/-- Placing a mixin takes nothing away: a prepended line may move to the front, and an included one
leaves what is prepended alone. -/
theorem place_mixin (absorbs : slots.Absorbs part) (form : MixinForm) (line : List QualifiedName) :
    (slots.place (.mixin form, line)).Absorbs part := by
  have before {name : QualifiedName} (mem : name ∈ slots.before) :
      name ∈ (slots.place (.mixin form, line)).before := by
    cases form with
    | prepended => exact mem_before_prepend_iff.2 (.inl mem)
    | included => simpa [place] using mem
  have has {name : QualifiedName} (stands : slots.Has name) :
      (slots.place (.mixin form, line)).Has name := by
    cases form with
    | prepended => exact has_prepend_iff.2 (.inl stands)
    | included => exact has_insertLine_iff.2 (.inl stands)
  obtain ⟨role, line⟩ := part
  cases role with
  | superclass => exact absorbs.elim
  | mixin form' =>
    cases form' with
    | prepended => exact fun name mem => before (absorbs name mem)
    | included => exact fun name mem => has (absorbs name mem)

end Absorbs

/-- Every mixin among the parts is absorbed once all of them are placed. -/
theorem absorbs_foldl_place (first : ∀ part ∈ parts.tail, part.1 ≠ .superclass)
    (mem : part ∈ parts) (mixin : part.1 ≠ .superclass) :
    (parts.foldl place .empty).Absorbs part := by
  induction parts using List.reverseRecOn with
  | nil => cases mem
  | append_singleton parts last ih =>
    rw [List.foldl_append, List.foldl_cons, List.foldl_nil]
    obtain ⟨role, line⟩ := last
    cases role with
    | mixin form =>
      rcases List.mem_append.1 mem with earlier | here
      · refine (ih (fun part mem => first part ?_) earlier).place_mixin form line
        cases parts with
        | nil => cases mem
        | cons => exact List.mem_append_left _ mem
      · obtain rfl := List.mem_singleton.1 here
        exact .of_place _ form line
    | superclass =>
      -- The superclass comes last only when it comes alone.
      cases parts with
      | nil => exact absurd (congrArg Prod.fst (List.mem_singleton.1 mem)) mixin
      | cons head rest => exact absurd rfl (first (.superclass, line) (by simp))

theorem foldl_place_eq_self {repeats : List (Role × List QualifiedName)}
    (absorbs : ∀ part ∈ repeats, slots.Absorbs part) : repeats.foldl place slots = slots := by
  induction repeats with
  | nil => rfl
  | cons part rest ih =>
    obtain ⟨absorbed, rest_absorbed⟩ := List.forall_mem_cons.1 absorbs
    rw [List.foldl_cons, absorbed.place_eq_self, ih rest_absorbed]

end Slots

/-- Mixins that come again change no line. -/
theorem assemble_append_repeats {parts repeats : List (Role × List QualifiedName)}
    (owner : QualifiedName) (first : ∀ part ∈ parts.tail, part.1 ≠ .superclass)
    (repeated : ∀ part ∈ repeats, part ∈ parts ∧ part.1 ≠ .superclass) :
    assemble owner (parts ++ repeats) = assemble owner parts := by
  rw [assemble, List.foldl_append, Slots.foldl_place_eq_self, assemble]
  intro part mem
  obtain ⟨earlier, mixin⟩ := repeated part mem
  exact Slots.absorbs_foldl_place first earlier mixin

namespace Hierarchy

variable {h : Hierarchy} {unvisited : List QualifiedName} {name : QualifiedName}
  {known later : Lineages} {links repeats : List Link} {parts : List (Role × List QualifiedName)}

/-! ## Lineages that are worked out again -/

/-- A lineage that is worked out again, with the same classes and modules barred, is the same, and
nothing new is remembered. -/
theorem run_lineage_again (declared : (h.environment.module? name).isSome)
    (nodup : unvisited.Nodup)
    (growth : Growth unvisited ((h.lineage unvisited name).run known).2 later) :
    (h.lineage unvisited name).run later = (((h.lineage unvisited name).run known).1, later) := by
  by_cases enterable : name ∈ unvisited
  · exact run_lineage_of_known (growth.keeps _ _ (find?_lineage declared enterable nodup known))
  · cases found : known.find? name with
    | some line =>
      rw [run_lineage_of_known found] at growth ⊢
      exact run_lineage_of_known (growth.keeps _ _ found)
    | none =>
      rw [run_lineage_of_barred found (.inr enterable)] at growth ⊢
      exact run_lineage_of_barred (growth.find?_eq_none found enterable) (.inr enterable)

/-- Followed again, the link has the part that it had, and nothing new is remembered. -/
def Recurs (h : Hierarchy) (unvisited : List QualifiedName) (known : Lineages) (link : Link)
    (part : Role × List QualifiedName) : Prop :=
  part.1 = link.role ∧ (h.lineage unvisited link.target).run known = (part.2, known)

/-- All links that were followed recur, once the rest of them were followed too. -/
theorem recurs_lineParts (declared : ∀ link ∈ links, (h.environment.module? link.target).isSome)
    (nodup : unvisited.Nodup)
    (growth : Growth unvisited ((h.lineParts unvisited links).run known).2 later) :
    List.Forall₂ (h.Recurs unvisited later) links ((h.lineParts unvisited links).run known).1 := by
  induction links generalizing known with
  | nil => exact .nil
  | cons link links ih =>
    obtain ⟨declared_first, declared_rest⟩ := List.forall_mem_cons.1 declared
    rw [run_lineParts_cons] at growth ⊢
    have between := (h.growth_both.2 unvisited links
      ((h.lineage unvisited link.target).run known).2).trans growth
    exact .cons ⟨rfl, run_lineage_again declared_first nodup between⟩ (ih declared_rest growth)

theorem roles_lineParts (unvisited : List QualifiedName) (links : List Link) (known : Lineages) :
    ((h.lineParts unvisited links).run known).1.map Prod.fst = links.map Link.role := by
  induction links generalizing known with
  | nil => rfl
  | cons link links ih => rw [run_lineParts_cons, List.map_cons, ih, List.map_cons]

/-- Links that recur bring the same parts again. -/
theorem exists_run_lineParts_repeats (recurs : List.Forall₂ (h.Recurs unvisited known) links parts)
    (repeated : ∀ link ∈ repeats, link ∈ links ∧ link.role ≠ .superclass) :
    ∃ again, (h.lineParts unvisited repeats).run known = (again, known) ∧
      ∀ part ∈ again, part ∈ parts ∧ part.1 ≠ .superclass := by
  induction repeats with
  | nil => exact ⟨[], rfl, nofun⟩
  | cons link repeats ih =>
    obtain ⟨⟨earlier, mixin⟩, rest⟩ := List.forall_mem_cons.1 repeated
    obtain ⟨again, computed, among⟩ := ih rest
    obtain ⟨part, mem, role, recalled⟩ := exists_related_of_mem recurs earlier
    refine ⟨part :: again, ?_, List.forall_mem_cons.2 ⟨⟨mem, role ▸ mixin⟩, among⟩⟩
    simp only [run_lineParts_cons, recalled, computed, ← role]

/-- Links that come again change neither the line that is assembled nor what is remembered. -/
theorem run_lineParts_append_repeats {entry : ModuleEntry} (owner : QualifiedName)
    (repeated : ∀ link ∈ repeats, link ∈ h.heritage entry ∧ link.role ≠ .superclass)
    (nodup : unvisited.Nodup) (known : Lineages) :
    ∃ parts again later, (h.lineParts unvisited (h.heritage entry)).run known = (parts, later) ∧
      (h.lineParts unvisited (h.heritage entry ++ repeats)).run known = (parts ++ again, later) ∧
        assemble owner (parts ++ again) = assemble owner parts := by
  have declared : ∀ link ∈ h.heritage entry, (h.environment.module? link.target).isSome := by
    intro link mem
    cases mem_heritage_iff.1 mem with
    | superclass _ leads => exact Environment.contains_of_normalize? leads
    | mixin _ leads => exact Environment.contains_of_normalize? leads
  have recurs := recurs_lineParts declared nodup
    (.refl unvisited ((h.lineParts unvisited (h.heritage entry)).run known).2)
  obtain ⟨again, computed, among⟩ := exists_run_lineParts_repeats recurs repeated
  exact ⟨_, again, _, rfl, run_lineParts_append rfl computed,
    assemble_append_repeats owner (superclass_first (h.roles_lineParts ..)) among⟩

end Hierarchy

/-! ## Nothing new -/

namespace Environment

/-- A class or module of the environment is opened once more with nothing new: no superclass, no
location, and only mixins that repeat an earlier one, which has the same form and stands for the
same class or module. -/
structure Restates (env : Environment) (decl : ModuleDecl) (env' : Environment) : Prop
    extends env.Reopened decl env' where
  no_superclass : decl.head.superclass? = none
  unplaced : decl.location? = none
  repeats : ∀ entry, env.module? decl.name = some entry → ∀ mixin ∈ decl.mixins,
    ∃ earlier ∈ entry.mixins, earlier.form = mixin.form ∧
      env.normalize? earlier.moduleName = env.normalize? mixin.moduleName

namespace Restates

open Hierarchy

variable {env env' : Environment} {decl : ModuleDecl} {entry : ModuleEntry}
  (restates : env.Restates decl env') (builtins : Builtins)

include restates

/-- The links of the reopened entry are those it had, and some of them again. -/
theorem heritage_eq (known : env.module? decl.name = some entry) :
    ∃ repeats, heritage ⟨env', builtins⟩ (entry.merge decl) =
        heritage ⟨env, builtins⟩ entry ++ repeats ∧
      ∀ link ∈ repeats, link ∈ heritage ⟨env, builtins⟩ entry ∧ link.role ≠ .superclass := by
  refine ⟨_, (heritage_reopened restates.toReopened builtins _).trans
    (heritage_merge _ entry restates.no_superclass), fun link mem => ?_⟩
  obtain ⟨mixin, mixes, found⟩ := List.mem_filterMap.1 mem
  obtain ⟨target, leads, rfl⟩ := Option.map_eq_some_iff.1 found
  obtain ⟨earlier, mixes, form, same⟩ := restates.repeats entry known mixin mixes
  have linked := LinkOf.mixin (h := ⟨env, builtins⟩) mixes (same.trans leads)
  exact ⟨mem_heritage_iff.2 (form ▸ linked), nofun⟩

theorem lineage_eq {unvisited : List QualifiedName} (nodup : unvisited.Nodup)
    (name : QualifiedName) :
    lineage ⟨env', builtins⟩ unvisited name = lineage ⟨env, builtins⟩ unvisited name := by
  refine lineage_eq_of_entered (R := fun unvisited unvisited' => unvisited = unvisited' ∧
    unvisited.Nodup) ?mem_iff ?erase ?isSome_iff ?entered ⟨rfl, nodup⟩ name
  case mem_iff =>
    rintro unvisited _ name ⟨rfl, -⟩
    rfl
  case erase =>
    rintro unvisited _ name ⟨rfl, nodup⟩
    exact ⟨rfl, nodup.erase name⟩
  case isSome_iff => exact fun name => Bool.eq_iff_iff.1 (restates.contains_modules_eq name)
  case entered =>
    rintro unvisited _ name entry' entry ⟨rfl, nodup⟩ declared' declared parts_eq known
    rw [parts_eq]
    by_cases here : name = decl.name
    · subst here
      obtain rfl := Option.some.inj ((restates.module?_eq declared).symm.trans declared')
      obtain ⟨repeats, links, repeated⟩ := restates.heritage_eq builtins declared
      obtain ⟨parts, again, later, computed, computed', same⟩ :=
        run_lineParts_append_repeats decl.name repeated nodup known
      rw [links, computed, computed']
      exact ⟨same, rfl⟩
    · obtain rfl := Option.some.inj
        (declared'.symm.trans ((restates.module?_eq_of_ne here).trans declared))
      rw [heritage_reopened restates.toReopened]
      exact ⟨rfl, rfl⟩

/-- A request for ancestors is answered as before, whatever is known, and makes the same known. -/
theorem ancestors?_eq (name : QualifiedName) :
    ancestors? ⟨env', builtins⟩ name = ancestors? ⟨env, builtins⟩ name := by
  have nodup : env.modules.keys.Nodup := env.modules.nodup_keys
  rw [ancestors?, ancestors?]
  simp only [restates.normalize?_eq, restates.keys_eq, restates.lineage_eq builtins nodup]

end Restates

end Environment

end NameResolution
