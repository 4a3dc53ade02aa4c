import Mathlib.Data.List.Nodup
import NameResolution.Ancestry.Assembly

/-!
# What an assembled line holds

Merging lines into the parts around an owner loses nothing and invents nothing. What is included
stands there once and not among what is inherited. A prepended line may repeat what stands behind
the owner.

## Main definitions

* `Slots.Has` — an ancestor stands in some part.
* `Slots.Filled` — what the parts hold once some lines are merged into them.

## Main statements

* `Slots.filled_of_superclass_first` — merging the superclass's line and then those of the mixins.
* `mem_assemble_iff`, `count_assemble`, `nodup_assemble`, `exists_parts_assemble` — the whole line.
* `assemble_append_included` — what one more included line changes.
-/

namespace NameResolution

namespace Slots

variable {slots : Slots} {name owner : QualifiedName} {line : List QualifiedName}
  {parts : List (Role × List QualifiedName)}

/-! ## One part after the other -/

/-- The ancestor stands in some part. -/
def Has (slots : Slots) (name : QualifiedName) : Prop :=
  name ∈ slots.before ∨ name ∈ slots.after ∨ name ∈ slots.inherited

theorem contains_iff_has : slots.contains name = true ↔ slots.Has name := by
  simp [contains, Has, or_assoc]

theorem mem_around_iff : name ∈ slots.around owner ↔ name = owner ∨ slots.Has name := by
  simp only [around, Has, List.mem_append, List.mem_cons]
  tauto

@[simp] theorem after_prepend : (slots.prepend line).after = slots.after := by
  unfold prepend
  split <;> rfl

@[simp] theorem inherited_prepend : (slots.prepend line).inherited = slots.inherited := by
  unfold prepend
  split <;> rfl

theorem mem_before_prepend_iff :
    name ∈ (slots.prepend line).before ↔ name ∈ slots.before ∨ name ∈ line := by
  unfold prepend
  split
  · next nothing_new =>
    have known : name ∈ line → name ∈ slots.before := by
      simpa using List.all_eq_true.1 nothing_new name
    tauto
  · by_cases moved : name ∈ line <;> simp [moved]

theorem has_prepend_iff : (slots.prepend line).Has name ↔ slots.Has name ∨ name ∈ line := by
  simp only [Has, mem_before_prepend_iff, after_prepend, inherited_prepend]
  tauto

@[simp] theorem before_insertIncluded : (slots.insertIncluded name).before = slots.before := by
  unfold insertIncluded
  split <;> rfl

@[simp] theorem inherited_insertIncluded :
    (slots.insertIncluded name).inherited = slots.inherited := by
  unfold insertIncluded
  split <;> rfl

theorem has_insertIncluded_iff {other : QualifiedName} :
    (slots.insertIncluded other).Has name ↔ slots.Has name ∨ name = other := by
  unfold insertIncluded
  split
  · next known =>
    have stands := contains_iff_has.1 known
    grind
  · simp only [Has, List.mem_cons]
    tauto

theorem insertLine_cons {first : QualifiedName} :
    slots.insertLine (first :: line) = (slots.insertLine line).insertIncluded first := rfl

@[simp] theorem before_insertLine : (slots.insertLine line).before = slots.before := by
  induction line with
  | nil => rfl
  | cons first rest ih => rw [insertLine_cons, before_insertIncluded, ih]

@[simp] theorem inherited_insertLine : (slots.insertLine line).inherited = slots.inherited := by
  induction line with
  | nil => rfl
  | cons first rest ih => rw [insertLine_cons, inherited_insertIncluded, ih]

theorem has_insertLine_iff : (slots.insertLine line).Has name ↔ slots.Has name ∨ name ∈ line := by
  induction line with
  | nil => simp [insertLine]
  | cons first rest ih =>
    rw [insertLine_cons, has_insertIncluded_iff, ih, List.mem_cons]
    tauto

/-- A line without repetition is included as a block: what stands nowhere yet, in its own order. -/
theorem insertLine_eq (nodup : line.Nodup) : slots.insertLine line =
    { slots with after := line.filter (!slots.contains ·) ++ slots.after } := by
  induction line with
  | nil => rfl
  | cons first rest ih =>
    obtain ⟨fresh, nodup'⟩ := List.nodup_cons.1 nodup
    have known : (slots.insertLine rest).contains first = slots.contains first := by
      rw [Bool.eq_iff_iff, contains_iff_has, contains_iff_has, has_insertLine_iff,
        or_iff_left fresh]
    rw [insertLine_cons, insertIncluded, known, ih nodup']
    cases stands : slots.contains first <;> simp [stands]

/-- Nothing is included twice, and nothing that is inherited is included. -/
structure Apart (slots : Slots) : Prop where
  nodup : slots.after.Nodup
  disjoint : slots.after.Disjoint slots.inherited

namespace Apart

theorem prepend (apart : slots.Apart) (line : List QualifiedName) : (slots.prepend line).Apart :=
  ⟨by simpa using apart.nodup, by simpa using apart.disjoint⟩

theorem insertIncluded (apart : slots.Apart) (name : QualifiedName) :
    (slots.insertIncluded name).Apart := by
  unfold Slots.insertIncluded
  split
  · exact apart
  · next unknown =>
    rw [contains_iff_has] at unknown
    obtain ⟨-, fresh, strange⟩ : name ∉ slots.before ∧ name ∉ slots.after ∧
        name ∉ slots.inherited := by
      simpa [Has] using unknown
    exact ⟨List.nodup_cons.2 ⟨fresh, apart.nodup⟩,
      List.disjoint_cons_left.2 ⟨strange, apart.disjoint⟩⟩

theorem insertLine (apart : slots.Apart) (line : List QualifiedName) :
    (slots.insertLine line).Apart := by
  induction line with
  | nil => exact apart
  | cons first rest ih => exact ih.insertIncluded first

end Apart

/-! ## All parts -/

/-- What the parts hold once the lines of `parts` are merged into them. -/
structure Filled (slots : Slots) (parts : List (Role × List QualifiedName)) : Prop where
  /-- Nothing is lost, and nothing is invented. -/
  has_iff : ∀ name, slots.Has name ↔ ∃ part ∈ parts, name ∈ part.2
  apart : slots.Apart
  inherited : slots.inherited = [] ∨ (.superclass, slots.inherited) ∈ parts
  before : (∀ part ∈ parts, part.1 ≠ .mixin .prepended) → slots.before = []

namespace Filled

theorem empty : Filled .empty [] where
  has_iff := by simp [Slots.empty, Has]
  apart := ⟨List.nodup_nil, List.disjoint_nil_left _⟩
  inherited := .inl rfl
  before := fun _ => rfl

theorem superclass (line : List QualifiedName) :
    Filled (Slots.empty.place (.superclass, line)) [(.superclass, line)] where
  has_iff := by simp [place, Slots.empty, Has]
  apart := ⟨List.nodup_nil, List.disjoint_nil_left _⟩
  inherited := .inr List.mem_cons_self
  before := fun _ => rfl

theorem place_mixin (filled : slots.Filled parts) (form : MixinForm) (line : List QualifiedName) :
    Filled (slots.place (.mixin form, line)) (parts ++ [(.mixin form, line)]) := by
  have grown (slots' : Slots) (has : ∀ name, slots'.Has name ↔ slots.Has name ∨ name ∈ line)
      (name : QualifiedName) : slots'.Has name ↔
        ∃ part ∈ parts ++ [(.mixin form, line)], name ∈ part.2 := by
    rw [has, filled.has_iff]
    simp [or_and_right, exists_or]
  have kept : slots.inherited = [] ∨
      (.superclass, slots.inherited) ∈ parts ++ [(.mixin form, line)] :=
    filled.inherited.imp_right (List.mem_append_left _)
  cases form with
  | prepended =>
    refine ⟨grown _ fun _ => has_prepend_iff, filled.apart.prepend line, ?_, fun included => ?_⟩
    · simpa [place] using kept
    · exact absurd rfl (included (.mixin .prepended, line) (by simp))
  | included =>
    refine ⟨grown _ fun _ => has_insertLine_iff, filled.apart.insertLine line, ?_,
      fun included => ?_⟩
    · simpa [place] using kept
    · rw [place, before_insertLine]
      exact filled.before fun part mem => included part (List.mem_append_left _ mem)

theorem foldl_place {mixins : List (Role × List QualifiedName)} (filled : slots.Filled parts)
    (only_mixins : ∀ part ∈ mixins, part.1 ≠ .superclass) :
    Filled (mixins.foldl place slots) (parts ++ mixins) := by
  induction mixins generalizing slots parts with
  | nil => simpa using filled
  | cons part rest ih =>
    obtain ⟨mixin, rest_mixins⟩ := List.forall_mem_cons.1 only_mixins
    obtain ⟨role, line⟩ := part
    cases role with
    | superclass => exact absurd rfl mixin
    | mixin form => simpa using ih (filled.place_mixin form line) rest_mixins

end Filled

/-- Only the first line may be the superclass's, as it replaces what was inherited before. -/
theorem filled_of_superclass_first (first : ∀ part ∈ parts.tail, part.1 ≠ .superclass) :
    Filled (parts.foldl place .empty) parts := by
  cases parts with
  | nil => exact .empty
  | cons part rest =>
    obtain ⟨role, line⟩ := part
    cases role with
    | superclass => exact (Filled.superclass line).foldl_place first
    | mixin form => exact (Filled.empty.place_mixin form line).foldl_place first

end Slots

/-! ## Lines -/

section assemble

variable {name owner : QualifiedName} {parts : List (Role × List QualifiedName)}

theorem mem_assemble_iff (first : ∀ part ∈ parts.tail, part.1 ≠ .superclass) :
    name ∈ assemble owner parts ↔ name = owner ∨ ∃ part ∈ parts, name ∈ part.2 := by
  rw [assemble, Slots.mem_around_iff, (Slots.filled_of_superclass_first first).has_iff]

theorem not_has_of_strange (first : ∀ part ∈ parts.tail, part.1 ≠ .superclass)
    (strange : ∀ part ∈ parts, owner ∉ part.2) :
    let slots := parts.foldl Slots.place .empty
    owner ∉ slots.before ∧ owner ∉ slots.after ∧ owner ∉ slots.inherited := by
  have missing : ¬(parts.foldl Slots.place .empty).Has owner := by
    rw [(Slots.filled_of_superclass_first first).has_iff]
    rintro ⟨part, mem, stands⟩
    exact strange part mem stands
  simpa [Slots.Has] using missing

/-- An owner that no merged line has stands in its own line once. -/
theorem count_assemble (first : ∀ part ∈ parts.tail, part.1 ≠ .superclass)
    (strange : ∀ part ∈ parts, owner ∉ part.2) : (assemble owner parts).count owner = 1 := by
  obtain ⟨before, after, inherited⟩ := not_has_of_strange first strange
  rw [assemble, Slots.around, List.count_append, List.count_append, List.count_cons_self,
    List.count_eq_zero_of_not_mem before, List.count_eq_zero_of_not_mem after,
    List.count_eq_zero_of_not_mem inherited]

theorem nodup_assemble (first : ∀ part ∈ parts.tail, part.1 ≠ .superclass)
    (strange : ∀ part ∈ parts, owner ∉ part.2)
    (included : ∀ part ∈ parts, part.1 ≠ .mixin .prepended)
    (nodup : ∀ line, (.superclass, line) ∈ parts → line.Nodup) : (assemble owner parts).Nodup := by
  have filled := Slots.filled_of_superclass_first first
  obtain ⟨-, after, inherited⟩ := not_has_of_strange first strange
  have inherited_nodup : (parts.foldl Slots.place .empty).inherited.Nodup := by
    rcases filled.inherited with none_inherited | from_superclass
    · simp [none_inherited]
    · exact nodup _ from_superclass
  rw [assemble, Slots.around, filled.before included, List.nil_append, List.cons_append,
    List.nodup_cons, List.mem_append, not_or]
  exact ⟨⟨after, inherited⟩,
    filled.apart.nodup.append inherited_nodup filled.apart.disjoint⟩

/-- Where nothing is prepended, a line starts with its owner. -/
theorem assemble_eq_cons_tail (first : ∀ part ∈ parts.tail, part.1 ≠ .superclass)
    (included : ∀ part ∈ parts, part.1 ≠ .mixin .prepended) :
    assemble owner parts = owner :: (assemble owner parts).tail := by
  rw [assemble, Slots.around, (Slots.filled_of_superclass_first first).before included]
  rfl

/-- Where nothing is prepended, one more included line puts its newcomers right behind the owner, in
their own order, and leaves the rest as it was. -/
theorem assemble_append_included {line : List QualifiedName}
    (first : ∀ part ∈ parts.tail, part.1 ≠ .superclass)
    (included : ∀ part ∈ parts, part.1 ≠ .mixin .prepended) (nodup : line.Nodup) :
    assemble owner (parts ++ [(.mixin .included, line)]) =
      owner :: (line.filter (· ∉ (assemble owner parts).tail) ++ (assemble owner parts).tail) := by
  have before := (Slots.filled_of_superclass_first first).before included
  simp only [assemble, List.foldl_append, List.foldl_cons, List.foldl_nil, Slots.place,
    Slots.insertLine_eq nodup, Slots.around, Slots.contains, before]
  simp

theorem exists_parts_assemble (owner : QualifiedName)
    (first : ∀ part ∈ parts.tail, part.1 ≠ .superclass) :
    ∃ before after inherited, assemble owner parts = before ++ [owner] ++ after ++ inherited ∧
      after.Nodup ∧ after.Disjoint inherited ∧
        (inherited = [] ∨ (.superclass, inherited) ∈ parts) := by
  have filled := Slots.filled_of_superclass_first first
  refine ⟨(parts.foldl Slots.place .empty).before, _, _, ?_, filled.apart.nodup,
    filled.apart.disjoint, filled.inherited⟩
  simp [assemble, Slots.around]

end assemble

end NameResolution
