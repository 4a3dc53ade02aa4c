import NameResolution.Proofs.Ancestry.Acyclic
import NameResolution.Proofs.Lookup.Order

/-!
# Bare names inside a class and at the root

At the root, a bare name is looked for in the root before all ancestors of the object class. In the
body of a class, those ancestors of the object class that are not implicit ones come before the
root, as they are ancestors of the class as well.

## Main definitions

* `Hierarchy.Silent` — a class or module does not declare a name.
* `Hierarchy.sharedModules` — the ancestors that a class has in common with the object class, less
  the implicit ones.

## Main statements

* `Hierarchy.resolve_eq_root_unless_shared` — only a shared module that declares the name makes a
  difference between a class and the root, where nothing else in the class declares it.
* `Hierarchy.object_mixin_hides_root` — a module that makes a difference.
-/

namespace NameResolution

namespace Hierarchy

variable {h : Hierarchy} {kin : Kinship} {decls : List Declaration} {name : String}

/-- What the module stands for does not declare the name. -/
def Silent (h : Hierarchy) (decls : List Declaration) (name : String) (module : QualifiedName) :
    Prop :=
  ∀ ns, h.opened? module = some ns → ∀ type, ¬Declares decls (ns.member name) type

/-- The ancestors of the innermost frame that are ancestors of the object class too, less the
implicit ones. -/
def sharedModules (h : Hierarchy) (kin : Kinship) (context : Context) : List QualifiedName :=
  match context.innermost? with
  | none => []
  | some frame => ((kin frame).getD []).filter fun n =>
      n ∈ (kin h.builtins.object).getD [] ∧ n ∉ h.builtins.implicitAncestors

theorem judge_eq_absent_of_silent (built : Environment.Built decls h.environment)
    {modules : List QualifiedName} (silent : ∀ module ∈ modules, h.Silent decls name module) :
    h.environment.judge name (modules.filterMap h.opened?) = .absent := by
  refine Environment.judge_eq_absent_iff.2 fun ns mem => built.lookup_eq_absent_iff.2 ?_
  obtain ⟨module, mem, opened⟩ := List.mem_filterMap.1 mem
  exact silent module mem ns opened

/-- Modules that do not declare the name may be left out. -/
theorem judge_filter (built : Environment.Built decls h.environment)
    {modules : List QualifiedName} (keep : QualifiedName → Bool)
    (silent : ∀ module ∈ modules, keep module = false → h.Silent decls name module) :
    h.environment.judge name ((modules.filter keep).filterMap h.opened?) =
      h.environment.judge name (modules.filterMap h.opened?) := by
  induction modules with
  | nil => rfl
  | cons module rest ih =>
    obtain ⟨here, later⟩ := List.forall_mem_cons.1 silent
    have split : h.environment.judge name ((module :: rest).filterMap h.opened?) =
        (h.environment.judge name ([module].filterMap h.opened?)).orElse
          (h.environment.judge name (rest.filterMap h.opened?)) := by
      rw [← Environment.judge_append, ← List.filterMap_append, List.singleton_append]
    rw [split, List.filter_cons]
    split
    · next kept =>
      rw [← List.singleton_append, List.filterMap_append, Environment.judge_append, ih later]
    · next dropped =>
      have absent : h.environment.judge name ([module].filterMap h.opened?) = .absent :=
        judge_eq_absent_of_silent built
          (List.forall_mem_singleton.2 (here (by simpa using dropped)))
      rw [absent, Resolution.absent_orElse, ih later]

/-- Where the frames and the ancestors that the object class lacks do not declare the name, only the
shared ones are left before what is seen at the root. -/
theorem judge_searchOrder (built : Environment.Built decls h.environment) {context : Context}
    (frames : ∀ frame ∈ context.frames, h.Silent decls name frame)
    (not_own : ∀ frame ∈ context.innermost?, frame.last ≠ name)
    (others : ∀ frame ∈ context.innermost?, ∀ n ∈ (kin frame).getD [],
      n ∉ (kin h.builtins.object).getD [] → h.Silent decls name n) :
    h.environment.judge name (h.searchOrder kin name context) =
      (h.environment.judge name ((h.sharedModules kin context).filterMap h.opened?)).orElse
        (h.environment.judge name (h.searchOrder kin name .root)) := by
  have root : h.searchOrder kin name .root = .root :: (h.objectModules kin).filterMap h.opened? :=
    searchOrder_of_foreign (fun _ mem => nomatch mem)
  have shared : h.sharedModules kin context =
      (h.ownAncestors kin context).filter (· ∈ (kin h.builtins.object).getD []) := by
    unfold sharedModules ownAncestors
    cases context.innermost? with
    | none => rfl
    | some frame => simp only [List.filter_filter, Bool.decide_and]
  rw [searchOrder_of_foreign not_own, ← root, Environment.judge_append,
    judge_eq_absent_of_silent built frames, Resolution.absent_orElse, Environment.judge_append,
    shared]
  -- The ancestors that the object class lacks do not declare the name.
  congr 1
  refine (judge_filter built _ fun n mem dropped => ?_).symm
  unfold ownAncestors at mem
  split at mem
  · cases mem
  · next frame innermost =>
    exact others frame innermost n (List.mem_of_mem_filter mem) (by simpa using dropped)

/-! ## A module mixed into the object class -/

/-- Declarations in which the object class mixes in a module of its own, with a constant whose name
a root constant has as well. -/
def mixedIntoObjectDecls : List Declaration :=
  let basicObject := Builtins.standard.basicObject
  let kernel := Builtins.standard.kernel
  let mix := Namespace.root.member "Mix"
  let c := Namespace.root.member "C"
  [.ofModule ⟨basicObject, .ofClass none, [], none⟩,
    .ofModule ⟨kernel, .ofModule [], [], none⟩,
    .ofModule ⟨mix, .ofModule [], [], none⟩,
    .ofModule ⟨Builtins.standard.object, .ofClass (some basicObject),
      [⟨.included, kernel⟩, ⟨.included, mix⟩], none⟩,
    .ofModule ⟨c, .ofClass none, [], none⟩,
    .ofConstant ⟨mix.toNamespace.member "X", .singleton mix, none⟩,
    .ofConstant ⟨Namespace.root.member "X", .singleton c, none⟩]

/-- The environment of `mixedIntoObjectDecls`. -/
def mixedIntoObject : Environment :=
  (Environment.ofDeclarations mixedIntoObjectDecls).toOption.getD ∅

theorem built_mixedIntoObject : Environment.Built mixedIntoObjectDecls mixedIntoObject :=
  .of_ofDeclarations rfl

/-- The ancestors of the class and of the object class in that environment. -/
def mixedIntoObjectKin : Kinship := fun name =>
  let ⟨object, kernel, basicObject⟩ := Builtins.standard
  let objectLine := [object, Namespace.root.member "Mix", kernel, basicObject]
  if name = object then some objectLine else some (name :: objectLine)

/-- What a run of queries answers for them, and for the name in the class and at the root. -/
theorem transcript_mixedIntoObject :
    let c := Namespace.root.member "C"
    let mix := Namespace.root.member "Mix"
    let object := Builtins.standard.object
    transcript ⟨mixedIntoObject, .standard⟩
        [.ancestors c, .ancestors object, .resolve "X" ⟨[c]⟩, .resolve "X" .root] =
      [(.ancestors c, .ancestors (mixedIntoObjectKin c)),
        (.ancestors object, .ancestors (mixedIntoObjectKin object)),
        (.resolve "X" ⟨[c]⟩,
          .resolution (.found ⟨mix.toNamespace.member "X", .singleton mix, none⟩)),
        (.resolve "X" .root,
          .resolution (.found ⟨Namespace.root.member "X", .singleton c, none⟩))] := by
  decide +kernel

/-- The class does not declare the name, and is all that the object class has not above it. -/
theorem silent_mixedIntoObject :
    let c := Namespace.root.member "C"
    Silent ⟨mixedIntoObject, .standard⟩ mixedIntoObjectDecls "X" c ∧
      ∀ n ∈ (mixedIntoObjectKin c).getD [],
        n ∉ (mixedIntoObjectKin Builtins.standard.object).getD [] →
          Silent ⟨mixedIntoObject, .standard⟩ mixedIntoObjectDecls "X" n := by
  intro c
  have silent : Silent ⟨mixedIntoObject, .standard⟩ mixedIntoObjectDecls "X" c := by
    have undeclared : ∀ ns ∈ opened? ⟨mixedIntoObject, .standard⟩ c,
        ∀ decl ∈ mixedIntoObjectDecls, decl.name ≠ ns.member "X" := by
      decide +kernel
    rintro ns opened type ⟨decl, declared, named, -⟩
    exact undeclared ns opened decl declared named
  have only : ∀ n ∈ (mixedIntoObjectKin c).getD [],
      n ∉ (mixedIntoObjectKin Builtins.standard.object).getD [] → n = c := by
    decide +kernel
  exact ⟨silent, fun n mem strange => only n mem strange ▸ silent⟩

/-! ## Inside a class and at the root -/

/-- A bare name that is not the innermost frame's own, and that neither the frames nor the ancestors
that the object class lacks declare, means the same as at the root unless a shared module declares
it. Then the first shared module that does settles it, whatever the root declares. -/
theorem resolve_eq_root_unless_shared (built : Environment.Built decls h.environment)
    (queries : List Query) (context : Context) (kin : Kinship) {inside outside : Answer}
    (asked : (.resolve name context, inside) ∈ h.transcript queries)
    (asked_root : (.resolve name .root, outside) ∈ h.transcript queries)
    (asked_kin : ∀ n ∈ context.innermost?.toList ++ [h.builtins.object],
      (.ancestors n, .ancestors (kin n)) ∈ h.transcript queries)
    (frames : ∀ frame ∈ context.frames, h.Silent decls name frame)
    (not_own : ∀ frame ∈ context.innermost?, frame.last ≠ name)
    (others : ∀ frame ∈ context.innermost?, ∀ n ∈ (kin frame).getD [],
      n ∉ (kin h.builtins.object).getD [] → h.Silent decls name n) :
    ((∀ module ∈ h.sharedModules kin context, h.Silent decls name module) → inside = outside) ∧
      ((∃ module ∈ h.sharedModules kin context, ¬h.Silent decls name module) →
        ∃ r, inside = .resolution r ∧
          DecidedBy decls ((h.sharedModules kin context).filterMap h.opened?) name r) := by
  have here := eq_judge_searchOrder built asked asked_kin
  have there := eq_judge_searchOrder built asked_root fun n mem =>
    asked_kin n (List.mem_append_right _ mem)
  have split := judge_searchOrder built frames not_own others
  refine ⟨fun silent => ?_, fun ⟨module, mem, declares⟩ => ⟨_, here, ?_⟩⟩
  · rw [here, there, split, judge_eq_absent_of_silent built silent, Resolution.absent_orElse]
  · have present : h.environment.judge name
        ((h.sharedModules kin context).filterMap h.opened?) ≠ .absent := by
      intro absent
      refine declares fun ns opened => ?_
      exact (built.decidedBy_judge name _).absent.1 absent ns
        (List.mem_filterMap.2 ⟨module, mem, opened⟩)
    rw [split, Resolution.orElse_of_ne_absent present]
    exact built.decidedBy_judge name _

/-- Inside a class, a module that is mixed into the object class settles the name. -/
theorem resolve_eq_root_unless_shared_mixedIntoObject :
    let c := Namespace.root.member "C"
    let mix := Namespace.root.member "Mix"
    let h : Hierarchy := ⟨mixedIntoObject, .standard⟩
    h.sharedModules mixedIntoObjectKin ⟨[c]⟩ = [mix] ∧
      DecidedBy mixedIntoObjectDecls [mix.toNamespace] "X"
        (.found ⟨mix.toNamespace.member "X", .singleton mix, none⟩) := by
  intro c mix h
  have shared : h.sharedModules mixedIntoObjectKin ⟨[c]⟩ = [mix] := by decide +kernel
  have opened : h.opened? mix = some mix.toNamespace := by decide +kernel
  have declares : ¬h.Silent mixedIntoObjectDecls "X" mix := by
    intro silent
    exact silent _ opened (.singleton mix)
      ⟨.ofConstant ⟨mix.toNamespace.member "X", .singleton mix, none⟩, by decide, rfl, rfl⟩
  obtain ⟨silent, others⟩ := silent_mixedIntoObject
  obtain ⟨-, hidden⟩ := resolve_eq_root_unless_shared (h := h)
    built_mixedIntoObject _ ⟨[c]⟩ mixedIntoObjectKin
    (by rw [transcript_mixedIntoObject]; exact .tail _ (.tail _ (.head _)))
    (by rw [transcript_mixedIntoObject]; exact .tail _ (.tail _ (.tail _ (.head _))))
    (List.forall_mem_cons.2 ⟨by rw [transcript_mixedIntoObject]; exact .head _,
      List.forall_mem_singleton.2 (by rw [transcript_mixedIntoObject]; exact .tail _ (.head _))⟩)
    (List.forall_mem_singleton.2 silent) (by decide) (by rintro frame ⟨⟩; exact others)
  obtain ⟨r, found, decided⟩ := hidden ⟨mix, by rw [shared]; exact .head _, declares⟩
  obtain rfl := Answer.resolution.inj found
  rw [shared] at decided
  exact ⟨shared, by simpa [opened] using decided⟩

/-- Inside a class, a module that is mixed into the object class hides a root constant, although
nothing else declares the name and there is no cycle. -/
theorem object_mixin_hides_root :
    let c := Namespace.root.member "C"
    let mix := Namespace.root.member "Mix"
    let object := Builtins.standard.object
    let h : Hierarchy := ⟨mixedIntoObject, .standard⟩
    let inside := .resolution (.found ⟨mix.toNamespace.member "X", .singleton mix, none⟩)
    let outside := .resolution (.found ⟨Namespace.root.member "X", .singleton c, none⟩)
    h.transcript [.ancestors c, .ancestors object, .resolve "X" ⟨[c]⟩, .resolve "X" .root] =
        [(.ancestors c, .ancestors (mixedIntoObjectKin c)),
          (.ancestors object, .ancestors (mixedIntoObjectKin object)),
          (.resolve "X" ⟨[c]⟩, inside), (.resolve "X" .root, outside)] ∧
      (∀ name, ¬h.ReachesCycle name) ∧
      h.Silent mixedIntoObjectDecls "X" c ∧ c.last ≠ "X" ∧
      (∀ n ∈ (mixedIntoObjectKin c).getD [], n ∉ (mixedIntoObjectKin object).getD [] →
        h.Silent mixedIntoObjectDecls "X" n) ∧
      inside ≠ outside := by
  intro c mix object h inside outside
  obtain ⟨silent, others⟩ := silent_mixedIntoObject
  have acyclic (name : QualifiedName) : ¬h.ReachesCycle name :=
    -- Whatever a class or module stands on is declared before it.
    not_reachesCycle_of_rank h.environment.modules.keys.idxOf (by decide +kernel)
  exact ⟨transcript_mixedIntoObject, acyclic, silent, by decide, others, by decide⟩

end Hierarchy

end NameResolution
