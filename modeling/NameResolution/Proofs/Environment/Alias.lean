import NameResolution.Environment.Alias
import NameResolution.OrderedMap.Lemmas

/-!
# Where chains of aliases end

## Main statements

* `Environment.contains_of_normalize?` — a chain of aliases ends in a class or module.
* `Environment.normalize?_of_contains` — a class or module stands for itself.
* `Environment.normalize?_of_alias` — an alias stands for what its target stands for.
-/

namespace NameResolution

namespace Environment

variable {env : Environment}

theorem contains_of_follow {unused : List QualifiedName} {name target : QualifiedName}
    (found : env.follow unused name = some target) : env.modules.contains target := by
  fun_induction follow env unused name with
  | case1 unused name here =>
    obtain rfl := Option.some.inj found
    exact here
  | case2 => cases found
  | case3 unused name _ decl _ fresh ih => exact ih found
  | case4 => cases found

theorem contains_of_normalize? {name target : QualifiedName}
    (found : env.normalize? name = some target) : env.modules.contains target :=
  contains_of_follow found

theorem normalize?_of_contains {name : QualifiedName} (declared : env.modules.contains name) :
    env.normalize? name = some name := by
  unfold normalize? follow
  simp [declared]

/-- Following aliases a second time leads nowhere else. -/
theorem normalize?_of_normalize? {name target : QualifiedName}
    (found : env.normalize? name = some target) : env.normalize? target = some target :=
  normalize?_of_contains (contains_of_normalize? found)

theorem normalize?_eq_of_leads {name target : QualifiedName}
    (leads : env.normalize? name = some target) : env.normalize? name = env.normalize? target := by
  rw [leads, normalize?_of_normalize? leads]

/-! ## One alias -/

/-- A chain that ends does so with more aliases to use as well. -/
theorem follow_mono {unused unused' : List QualifiedName} {name target : QualifiedName}
    (more : unused.Sublist unused') (found : env.follow unused name = some target) :
    env.follow unused' name = some target := by
  fun_induction follow env unused name generalizing unused' with
  | case1 unused name here => rwa [follow, if_pos here]
  | case2 => cases found
  | case3 unused name absent decl aliased fresh ih =>
    rw [follow, if_neg absent, aliased]
    simpa [more.subset fresh] using ih (more.erase name) found
  | case4 => cases found

/-- A chain that ends either never uses the alias `other`, or goes on from its target without using
it again. -/
theorem follow_erase {unused : List QualifiedName} {name target : QualifiedName}
    (other : QualifiedName) (found : env.follow unused name = some target) :
    env.follow (unused.erase other) name = some target ∨
      ∃ decl, env.alias? other = some decl ∧
        env.follow (unused.erase other) decl.target = some target := by
  fun_induction follow env unused name with
  | case1 unused name here => exact .inl (by rwa [follow, if_pos here])
  | case2 => cases found
  | case3 unused name absent decl aliased fresh ih =>
    by_cases same : name = other
    · subst same
      exact .inr ⟨decl, aliased, found⟩
    · have fresh' : name ∈ unused.erase other := (List.mem_erase_of_ne same).2 fresh
      rw [List.erase_comm] at ih
      refine (ih found).imp (fun rest => ?_) fun ⟨decl', aliased', rest⟩ => ⟨decl', aliased', ?_⟩
      · rw [follow, if_neg absent, aliased]
        simpa [fresh'] using rest
      · exact follow_mono List.erase_sublist rest
  | case4 => cases found

/-- An alias stands for what its target stands for, unless a class or module has its name. -/
theorem normalize?_of_alias {name : QualifiedName} {decl : AliasDecl}
    (absent : ¬env.modules.contains name) (aliased : env.alias? name = some decl) :
    env.normalize? name = env.normalize? decl.target := by
  have known : name ∈ env.aliases.keys :=
    (OrderedMap.mem_keys_iff _ _).2 (Option.isSome_of_eq_some aliased)
  have step : env.normalize? name = env.follow (env.aliases.keys.erase name) decl.target := by
    rw [normalize?, follow, if_neg absent, aliased]
    simp [known]
  refine Option.ext fun target => ?_
  rw [step]
  constructor
  · exact follow_mono List.erase_sublist
  · intro found
    -- A chain from the target that came back to the alias would start over.
    rcases follow_erase name found with rest | ⟨decl', aliased', rest⟩
    · exact rest
    · obtain rfl := Option.some.inj (aliased.symm.trans aliased')
      exact rest

end Environment

end NameResolution
