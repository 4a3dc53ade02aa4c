import NameResolution.Environment.AliasWalk
import NameResolution.Proofs.Environment.Alias

/-!
# Chains of aliases

A chain of aliases is taken step by step, with nothing remembered, so that it may go on forever.
What a name stands for is decided by its chain alone: it is the class or module that the chain ends
in, and there is none when the chain ends elsewhere or does not end. A walk that remembers what it
has come through finds this out, and needs at most one turn more than there are aliases.

## Main definitions

* `Environment.target?` — one step of a chain.
* `Environment.chain` — the name that a chain comes to after some steps.

## Main statements

* `AliasWalk.run_eq_follow` — how long a walk takes, and what it comes to.
* `Environment.normalization_follows_chain` — what a name stands for, told by its chain.
-/

namespace NameResolution

namespace Environment

variable {env : Environment} {name next other target : QualifiedName} {steps : Nat}

/-! ## Steps -/

/-- The target of an alias. A class or module leads nowhere, even when an alias has its name. -/
def target? (env : Environment) (name : QualifiedName) : Option QualifiedName :=
  if env.modules.contains name then none else (env.alias? name).map AliasDecl.target

/-- The name that the chain from `name` comes to after some steps; none when it has ended before. -/
def chain (env : Environment) (name : QualifiedName) : (steps : Nat) → Option QualifiedName
  | 0 => some name
  | steps + 1 => (env.chain name steps).bind env.target?

theorem target?_eq_some_iff : env.target? name = some next ↔
    ¬env.modules.contains name ∧ ∃ decl, env.alias? name = some decl ∧ decl.target = next := by
  unfold target?
  split <;> simp [*]

/-- A chain ends at a class or module, or at a name that is none and no alias. -/
theorem target?_eq_none_iff :
    env.target? name = none ↔ env.modules.contains name ∨ ¬env.isModuleName name := by
  unfold target? isModuleName alias? OrderedMap.contains
  cases (env.modules.find? name).isSome <;> simp

/-- The first step of a chain may be taken off. -/
theorem chain_succ (env : Environment) (name : QualifiedName) (steps : Nat) :
    env.chain name (steps + 1) = (env.target? name).bind fun next => env.chain next steps := by
  induction steps with
  | zero => cases leads : env.target? name <;> simp [chain, leads]
  | succ steps ih =>
    rw [chain, ih, Option.bind_assoc]
    rfl

/-! ## The end of a chain -/

theorem normalize?_of_target? (leads : env.target? name = some next) :
    env.normalize? name = env.normalize? next := by
  obtain ⟨absent, decl, aliased, rfl⟩ := target?_eq_some_iff.1 leads
  exact normalize?_of_alias absent aliased

/-- All names of a chain stand for the same class or module, or for none. -/
theorem normalize?_of_chain (reached : env.chain name steps = some other) :
    env.normalize? name = env.normalize? other := by
  induction steps generalizing other with
  | zero => rw [Option.some.inj reached]
  | succ steps ih =>
    obtain ⟨before, reached, leads⟩ := Option.bind_eq_some_iff.1 reached
    rw [ih reached, normalize?_of_target? leads]

theorem normalize?_of_not_isModuleName (unknown : ¬env.isModuleName name) :
    env.normalize? name = none := by
  have unknown : env.modules.contains name = false ∧ env.aliases.contains name = false := by
    simpa [isModuleName] using unknown
  have unaliased : env.alias? name = none := by
    simpa [OrderedMap.contains, alias?] using unknown.2
  rw [normalize?, follow, if_neg (by simp [unknown.1]), unaliased]

theorem exists_chain_of_follow {unused : List QualifiedName}
    (found : env.follow unused name = some target) :
    ∃ steps, env.chain name steps = some target := by
  fun_induction follow env unused name with
  | case1 => exact ⟨0, found⟩
  | case2 => cases found
  | case3 unused name absent decl aliased _ ih =>
    obtain ⟨steps, reached⟩ := ih found
    have leads := target?_eq_some_iff.2 ⟨absent, decl, aliased, rfl⟩
    exact ⟨steps + 1, by rw [chain_succ, leads, Option.bind_some, reached]⟩
  | case4 => cases found

/-- A name stands for the class or module that its chain comes to. -/
theorem normalize?_eq_some_iff_chain : env.normalize? name = some target ↔
    env.modules.contains target ∧ ∃ steps, env.chain name steps = some target := by
  constructor
  · exact fun found => ⟨contains_of_normalize? found, exists_chain_of_follow found⟩
  · rintro ⟨declared, steps, reached⟩
    rw [normalize?_of_chain reached, normalize?_of_contains declared]

/-- A chain that is over at some point came to its last name before. -/
theorem exists_last_of_chain_eq_none (gone : env.chain name steps = none) :
    ∃ steps last, env.chain name steps = some last ∧ env.target? last = none := by
  induction steps with
  | zero => cases gone
  | succ steps ih =>
    cases reached : env.chain name steps with
    | none => exact ih reached
    | some last => exact ⟨steps, last, reached, by rwa [chain, reached, Option.bind_some] at gone⟩

/-- A name stands for nothing when its chain comes to a name that is no class, module or alias, and
when it never ends. -/
theorem normalize?_eq_none_iff_chain : env.normalize? name = none ↔
    (∃ steps last, env.chain name steps = some last ∧ ¬env.isModuleName last) ∨
      ∀ steps, (env.chain name steps).isSome := by
  constructor
  · intro nowhere
    by_cases endless : ∀ steps, (env.chain name steps).isSome
    · exact .inr endless
    · obtain ⟨steps, gone⟩ := Classical.not_forall.1 endless
      obtain ⟨steps, last, reached, ended⟩ :=
        exists_last_of_chain_eq_none (Option.not_isSome_iff_eq_none.1 gone)
      rw [normalize?_of_chain reached] at nowhere
      refine .inl ⟨steps, last, reached, (target?_eq_none_iff.1 ended).resolve_left ?_⟩
      intro declared
      simp [normalize?_of_contains declared] at nowhere
  · rintro (⟨steps, last, reached, unknown⟩ | endless)
    · rw [normalize?_of_chain reached, normalize?_of_not_isModuleName unknown]
    · refine Option.eq_none_iff_forall_ne_some.2 fun target found => ?_
      obtain ⟨declared, steps, reached⟩ := normalize?_eq_some_iff_chain.1 found
      have gone : env.chain name (steps + 1) = none := by
        rw [chain, reached, Option.bind_some, target?_eq_none_iff.2 (.inl declared)]
      simpa [gone] using endless (steps + 1)

end Environment

/-! ## Walks -/

namespace AliasWalk

variable {env : Environment}

/-- A walk ends within one turn more than it has aliases left, and comes to the end of the chain
that uses each of those once. -/
theorem run_eq_follow {walk : AliasWalk} {unused : List QualifiedName} (distinct : unused.Nodup)
    (left : ∀ other, env.aliases.contains other → (other ∈ unused ↔ other ∉ walk.visited))
    {turns : Nat} (enough : unused.length < turns) :
    walk.run env turns = some (env.follow unused walk.current) := by
  induction turns generalizing walk unused with
  | zero => omega
  | succ turns ih =>
    rw [Environment.follow]
    by_cases declared : env.modules.contains walk.current
    · simp [run, turn, declared]
    · cases aliased : env.alias? walk.current with
      | none => simp [run, turn, declared, aliased]
      | some decl =>
        have known : env.aliases.contains walk.current := Option.isSome_of_eq_some aliased
        by_cases again : walk.current ∈ walk.visited
        · have used : walk.current ∉ unused := fun mem => (left _ known).1 mem again
          simp [run, turn, declared, aliased, again, used]
        · have fresh : walk.current ∈ unused := (left _ known).2 again
          have fewer : (unused.erase walk.current).length < turns := by
            rw [List.length_erase_of_mem fresh]
            have := List.length_pos_of_mem fresh
            omega
          have left' (other : QualifiedName) (known : env.aliases.contains other) :
              other ∈ unused.erase walk.current ↔ other ∉ walk.current :: walk.visited := by
            rw [distinct.mem_erase_iff, left other known, List.mem_cons, not_or]
          have rest : run env turns ⟨decl.target, walk.current :: walk.visited⟩ =
              some (env.follow (unused.erase walk.current) decl.target) :=
            ih (distinct.erase walk.current) left' fewer
          simp [run, turn, declared, aliased, again, fresh, rest]

/-- A walk from a name takes at most one turn more than there are aliases. -/
theorem run_start (env : Environment) (name : QualifiedName) :
    (start name).run env (env.aliases.size + 1) = some (env.normalize? name) := by
  have left (other : QualifiedName) (known : env.aliases.contains other) :
      other ∈ env.aliases.keys ↔ other ∉ (start name).visited :=
    iff_of_true ((OrderedMap.contains_iff_mem_keys ..).1 known) List.not_mem_nil
  have enough : env.aliases.keys.length < env.aliases.size + 1 := by simp
  exact run_eq_follow env.aliases.nodup_keys left enough

end AliasWalk

namespace Environment

/-- A walk along the aliases from a name is over after at most one turn more than there are aliases,
and comes to what the name stands for. That is the class or module that the chain of the name comes
to. There is none exactly when the chain comes to a name that is no class, module or alias, or when
it never ends. A class or module that is found stands for itself, and an alias stands for what its
target stands for. -/
theorem normalization_follows_chain (env : Environment) (name : QualifiedName) :
    (AliasWalk.start name).run env (env.aliases.size + 1) = some (env.normalize? name) ∧
    (∀ target, env.normalize? name = some target ↔
      (env.module? target).isSome ∧ ∃ steps, env.chain name steps = some target) ∧
    (env.normalize? name = none ↔
      (∃ steps last, env.chain name steps = some last ∧ ¬env.isModuleName last) ∨
        ∀ steps, (env.chain name steps).isSome) ∧
    (∀ target, env.normalize? name = some target → env.normalize? target = some target) ∧
    ∀ decl, env.module? name = none → env.alias? name = some decl →
      env.normalize? name = env.normalize? decl.target := by
  refine ⟨AliasWalk.run_start env name, fun target => normalize?_eq_some_iff_chain,
    normalize?_eq_none_iff_chain, fun target => normalize?_of_normalize?,
    fun decl undeclared aliased => normalize?_of_alias ?_ aliased⟩
  rw [OrderedMap.contains, ← module?, undeclared]
  exact Bool.false_ne_true

/-- A chain of three aliases to a module that has an alias of its own name, a dangling alias, and an
alias into a loop that it is no part of. -/
def windingDecls : List Declaration :=
  let named := Namespace.root.member
  let aliased (name target : String) : Declaration :=
    .ofAlias ⟨named name, named target, .moduleKind, none⟩
  [aliased "A" "B", aliased "B" "C", aliased "C" "M", .ofModule ⟨named "M", .ofModule [], [], none⟩,
    aliased "M" "Gone", aliased "D" "Gone", aliased "L" "P", aliased "P" "Q", aliased "Q" "P"]

/-- The environment of `windingDecls`. -/
def winding : Environment := (ofDeclarations windingDecls).toOption.getD ∅

/-- The chain of three ends in the module, which its own alias does not lead away from. A loop is
noticed as well by a walk that comes to it from outside. -/
theorem normalization_follows_chain_winding :
    let named := Namespace.root.member
    winding.normalize? (named "A") = some (named "M") ∧
      (∃ steps, winding.chain (named "A") steps = some (named "M")) ∧
      winding.normalize? (named "M") = some (named "M") ∧
      winding.normalize? (named "D") = none ∧
      (AliasWalk.start (named "L")).run winding 9 = some none ∧
      winding.normalize? (named "L") = winding.normalize? (named "P") := by
  intro named
  have found : winding.normalize? (named "A") = some (named "M") := by decide +kernel
  obtain ⟨-, ends, -, again, -⟩ := normalization_follows_chain winding (named "A")
  obtain ⟨-, -, nowhere, -⟩ := normalization_follows_chain winding (named "D")
  obtain ⟨walked, -, -, -, through⟩ := normalization_follows_chain winding (named "L")
  have looping : winding.normalize? (named "L") = none := by decide +kernel
  rw [looping] at walked
  exact ⟨found, ((ends _).1 found).2, again _ found,
    nowhere.2 (.inl ⟨1, named "Gone", by decide +kernel, by decide +kernel⟩), walked,
    through ⟨named "L", named "P", .moduleKind, none⟩ (by decide +kernel) (by decide +kernel)⟩

end Environment

end NameResolution
