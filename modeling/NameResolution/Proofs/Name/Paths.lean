import NameResolution.Proofs.Name.Written

/-!
# Paths of names

Names are taken apart at either end of their path and put together again, and nothing is lost on the
way but an absolute flag that no longer counts. Components may be any texts, well formed or not.

## Main definitions

* `Namespace.join` — one path inside another.
* `QualifiedName.joinFirst` — the inverse of splitting the first component off.
* `QualifiedName.heads` — the components that are split off from the front, one after the other.

## Main statements

* `Namespace.qualify_qualify` — reading names inside namespaces is an action of joining paths.
* `QualifiedName.heads_eq_components` — splitting from the front meets each component in order.
* `Namespace.ascend_eq_map_inits` — going up meets each prefix of the path.
* `names_split_and_rejoin` — all of this together.
-/

namespace NameResolution

/-! ## Names inside namespaces -/

namespace Namespace

/-- One path read inside another: a relative one goes below it, an absolute one stays. -/
def join (outer inner : Namespace) : Namespace :=
  if inner.isAbsolute then inner else { outer with path := outer.path ++ inner.path }

variable {outer inner : Namespace} {name : QualifiedName}

theorem qualify_of_absolute (absolute : name.isAbsolute) (ns : Namespace) :
    ns.qualify name = name := if_pos absolute

theorem qualify_of_relative (relative : ¬name.isAbsolute) (ns : Namespace) :
    ns.qualify name = ⟨⟨ns.isAbsolute, ns.path ++ name.container.path⟩, name.last⟩ :=
  if_neg relative

theorem isAbsolute_qualify (ns : Namespace) (name : QualifiedName) :
    (ns.qualify name).isAbsolute = (name.isAbsolute || ns.isAbsolute) := by
  cases flag : name.isAbsolute with
  | true => rw [qualify_of_absolute flag, flag, Bool.true_or]
  | false =>
    rw [qualify_of_relative (by simp [flag]), Bool.false_or]
    rfl

/-- A name read inside one namespace and then inside another is read inside the joined paths. -/
theorem qualify_qualify (outer inner : Namespace) (name : QualifiedName) :
    outer.qualify (inner.qualify name) = (outer.join inner).qualify name := by
  by_cases absolute : name.isAbsolute
  · rw [qualify_of_absolute absolute, qualify_of_absolute absolute, qualify_of_absolute absolute]
  have flag : (inner.qualify name).isAbsolute = inner.isAbsolute := by
    rw [isAbsolute_qualify, Bool.eq_false_iff.2 absolute, Bool.false_or]
  rw [qualify_of_relative absolute (outer.join inner)]
  by_cases anchored : inner.isAbsolute
  · rw [qualify_of_absolute (flag.trans anchored), qualify_of_relative absolute, join,
      if_pos anchored]
  · have below : ¬(inner.qualify name).isAbsolute := by rwa [flag]
    rw [qualify_of_relative below, qualify_of_relative absolute, join, if_neg anchored,
      List.append_assoc]

/-! ## Namespaces around a namespace -/

theorem ascend_eq_map_inits (ns : Namespace) :
    ns.ascend = ns.path.inits.reverse.map (mk ns.isAbsolute) := by
  obtain ⟨flag, path⟩ := ns
  induction path using List.reverseRecOn with
  | nil =>
    rw [ascend]
    rfl
  | append_singleton path last ih =>
    have up : parent? ⟨flag, path ++ [last]⟩ = some ⟨flag, path⟩ := by simp [parent?]
    rw [ascend]
    split
    · next top => cases up.symm.trans top
    · next around here =>
      obtain rfl := Option.some.inj (up.symm.trans here)
      rw [ih, List.inits_append]
      simp

end Namespace

/-! ## Components from the front -/

namespace QualifiedName

variable {name rest : QualifiedName} {head : String}

theorem length_path_of_splitFirst (split : name.splitFirst = (head, some rest)) :
    rest.container.path.length < name.container.path.length := by
  unfold splitFirst at split
  split at split
  · cases split
  · next path =>
    cases split
    rw [path]
    exact Nat.lt_succ_self _

/-- The name whose first component is split off: what follows, if anything does, goes below it. -/
def joinFirst : String × Option QualifiedName → QualifiedName
  | (head, none) => ⟨.empty, head⟩
  | (head, some rest) => Namespace.qualify ⟨false, [head]⟩ rest

/-- The components that are split off from the front, as long as anything follows. -/
def heads (name : QualifiedName) : List String :=
  match _h : name.splitFirst with
  | (head, none) => [head]
  | (head, some rest) => head :: rest.heads
termination_by name.container.path.length
decreasing_by exact length_path_of_splitFirst _h

/-- A relative name is put together again from its first component and what follows it. -/
theorem joinFirst_splitFirst (relative : ¬name.isAbsolute) : joinFirst name.splitFirst = name := by
  obtain ⟨⟨flag, path⟩, last⟩ := name
  obtain rfl : flag = false := Bool.eq_false_iff.2 relative
  cases path with
  | nil => rfl
  | cons head path => rfl

theorem components_of_splitFirst (split : name.splitFirst = (head, some rest)) :
    name.components = head :: rest.components := by
  obtain ⟨⟨flag, path⟩, last⟩ := name
  cases path with
  | nil => cases split
  | cons first path =>
    cases split
    rfl

theorem heads_eq_components (name : QualifiedName) : name.heads = name.components := by
  fun_induction heads name with
  | case1 name head split =>
    obtain ⟨⟨flag, path⟩, last⟩ := name
    cases path with
    | nil =>
      cases split
      rfl
    | cons first path => cases split
  | case2 name head rest split ih => rw [ih, components_of_splitFirst split]

theorem toName?_toNamespace (name : QualifiedName) : name.toNamespace.toName? = some name :=
  Namespace.toName?_eq_some_iff.2 rfl

theorem toNamespace_injective : Function.Injective toNamespace := by
  intro name other same
  have found := name.toName?_toNamespace
  rw [same, toName?_toNamespace] at found
  exact (Option.some.inj found).symm

end QualifiedName

/-- A name is read inside one namespace after the other as it is inside their paths in a row, and an
absolute one is left alone. The namespace that a name opens stands for that name and for no other. A
relative name is put together again from its first component and the rest, and its components are
what is split off from the front, in order. Around a namespace are the prefixes of its path, from
the longest to the empty one, counted from where it is counted. -/
theorem names_split_and_rejoin (outer inner : Namespace) (name : QualifiedName) :
    (outer.qualify (inner.qualify name) =
        if (inner.qualify name).isAbsolute then inner.qualify name
        else ⟨⟨outer.isAbsolute, outer.path ++ inner.path ++ name.container.path⟩, name.last⟩) ∧
      outer.qualify (inner.qualify name) = (outer.join inner).qualify name ∧
      name.toNamespace.toName? = some name ∧
      Function.Injective QualifiedName.toNamespace ∧
      (¬name.isAbsolute → QualifiedName.joinFirst name.splitFirst = name) ∧
      name.heads = name.components ∧
      outer.ascend = outer.path.inits.reverse.map (Namespace.mk outer.isAbsolute) := by
  refine ⟨?_, Namespace.qualify_qualify outer inner name, name.toName?_toNamespace,
    QualifiedName.toNamespace_injective, QualifiedName.joinFirst_splitFirst,
    name.heads_eq_components, outer.ascend_eq_map_inits⟩
  split
  · next absolute => exact Namespace.qualify_of_absolute absolute outer
  · next relative =>
    have below : ¬name.isAbsolute := by
      intro absolute
      exact relative (by rw [Namespace.isAbsolute_qualify, absolute, Bool.true_or])
    rw [Namespace.qualify_of_relative relative, Namespace.qualify_of_relative below,
      List.append_assoc]

/-- Components are kept as they are, also one that is empty and one that has a separator in it. -/
theorem names_split_and_rejoin_irregular :
    let name : QualifiedName := ⟨⟨false, ["A::B", ""]⟩, "C"⟩
    let outer : Namespace := ⟨true, ["X", "Y"]⟩
    ¬name.isAbsolute ∧ QualifiedName.joinFirst ("A::B", some ⟨⟨false, [""]⟩, "C"⟩) = name ∧
      outer.qualify (Namespace.qualify ⟨false, ["Z"]⟩ name) =
        ⟨⟨true, ["X", "Y", "Z", "A::B", ""]⟩, "C"⟩ ∧
      name.heads = ["A::B", "", "C"] ∧
      outer.ascend = [⟨true, ["X", "Y"]⟩, ⟨true, ["X"]⟩, .root] := by
  intro name outer
  have relative : ¬name.isAbsolute := by decide
  obtain ⟨read, -, -, -, rejoined, heads, around⟩ :=
    names_split_and_rejoin outer ⟨false, ["Z"]⟩ name
  exact ⟨relative, rejoined relative, read, heads, around⟩

end NameResolution
