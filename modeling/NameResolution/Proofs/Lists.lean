import Mathlib.Data.List.Forall2
import Mathlib.Data.List.Induction

/-!
# Lists

General facts about lists: values without repetition, in the order in which they come first, single
elements of a list, and lists within a list.

## Main statements

* `eraseDups_append_singleton` — one more value at the end.
* `eraseDups_filter`, `eraseDups_map_eraseDups`, `eraseDups_flatMap` — repetitions may be dropped
  before or after.
* `exists_first` — the first element with a property.
* `sublist_of_subset` — lists within one without repetition are ordered alike.
-/

namespace NameResolution

variable {α β : Type}

/-! ## Values without repetition -/

section EraseDups

variable [DecidableEq α] [DecidableEq β]

theorem eraseDups_append_singleton (xs : List α) (x : α) :
    (xs ++ [x]).eraseDups =
      if x ∈ xs.eraseDups then xs.eraseDups else xs.eraseDups ++ [x] := by
  simp only [List.eraseDups_append, List.mem_eraseDups]
  split <;> simp [*, List.removeAll, List.eraseDups_cons]

theorem eraseDups_filter (p : α → Bool) (xs : List α) :
    (xs.filter p).eraseDups = xs.eraseDups.filter p := by
  induction xs using List.reverseRecOn with
  | nil => rfl
  | append_singleton xs x ih =>
    rw [List.filter_append, eraseDups_append_singleton]
    by_cases kept : p x
    · have last : [x].filter p = [x] := by simp [kept]
      rw [last, eraseDups_append_singleton, ih]
      split <;> split <;> simp_all
    · have last : [x].filter p = [] := by simp [kept]
      rw [last, List.append_nil, ih]
      split <;> simp [kept]

theorem eraseDups_map_eraseDups (f : α → β) (xs : List α) :
    (xs.eraseDups.map f).eraseDups = (xs.map f).eraseDups := by
  induction xs using List.reverseRecOn with
  | nil => rfl
  | append_singleton xs x ih =>
    rw [eraseDups_append_singleton, List.map_append, List.map_singleton,
      eraseDups_append_singleton, ← ih]
    split
    · next known =>
      have image : f x ∈ (xs.eraseDups.map f).eraseDups :=
        List.mem_eraseDups.2 (List.mem_map_of_mem known)
      rw [if_pos image]
    · rw [List.map_append, List.map_singleton, eraseDups_append_singleton]

theorem eraseDups_append_replicate (xs : List α) (x : α) (n : Nat) :
    (xs ++ List.replicate (n + 1) x).eraseDups = (xs ++ [x]).eraseDups := by
  induction n with
  | zero => rfl
  | succ n ih =>
    rw [List.replicate_succ', ← List.append_assoc, eraseDups_append_singleton, ih]
    simp

omit [DecidableEq α] in
/-- Blocks that repeat one value each count as that value. -/
theorem eraseDups_flatMap {f : α → β} {g : α → List β} {xs : List α}
    (blocks : ∀ x ∈ xs, g x ≠ [] ∧ ∀ y ∈ g x, y = f x) :
    (xs.flatMap g).eraseDups = (xs.map f).eraseDups := by
  induction xs using List.reverseRecOn with
  | nil => rfl
  | append_singleton xs x ih =>
    obtain ⟨nonempty, all⟩ := blocks x (by simp)
    have block : g x = List.replicate ((g x).length - 1 + 1) (f x) := by
      rw [Nat.sub_add_cancel (List.length_pos_iff.2 nonempty)]
      exact List.eq_replicate_of_mem all
    rw [List.flatMap_append, List.flatMap_singleton, block, eraseDups_append_replicate,
      List.map_append, List.map_singleton, eraseDups_append_singleton, eraseDups_append_singleton,
      ih fun y mem => blocks y (List.mem_append_left _ mem)]

end EraseDups

/-! ## Single elements -/

theorem filterMap_append_singleton (f : α → Option β) (xs : List α) (x : α) :
    (xs ++ [x]).filterMap f = xs.filterMap f ++ (f x).toList := by
  cases image : f x <;> simp [image]

/-- The first element of a list with a property. -/
theorem exists_first {p : α → Prop} {list : List α} (present : ∃ a ∈ list, p a) :
    ∃ before a after, list = before ++ a :: after ∧ (∀ earlier ∈ before, ¬p earlier) ∧ p a := by
  classical
  cases found : list.find? fun a => decide (p a) with
  | none =>
    obtain ⟨a, mem, holds⟩ := present
    simpa [holds] using List.find?_eq_none.1 found a mem
  | some a =>
    obtain ⟨holds, before, after, split, earlier⟩ := List.find?_eq_some_iff_append.1 found
    exact ⟨before, a, after, split, by simpa using earlier, by simpa using holds⟩

theorem exists_related_of_mem {R : α → β → Prop} {as : List α} {bs : List β} {a : α}
    (related : List.Forall₂ R as bs) (mem : a ∈ as) : ∃ b ∈ bs, R a b := by
  induction related with
  | nil => cases mem
  | cons first _ ih =>
    rcases List.mem_cons.1 mem with rfl | mem
    · exact ⟨_, List.mem_cons_self, first⟩
    · obtain ⟨b, mem, here⟩ := ih mem
      exact ⟨b, List.mem_cons_of_mem _ mem, here⟩

/-! ## Lists within a list -/

section Sublist

variable [DecidableEq α] {part other whole : List α}

theorem filter_mem_eq (nodup : whole.Nodup) (within : part.Sublist whole) :
    whole.filter (· ∈ part) = part := by
  induction within with
  | slnil => rfl
  | @cons part whole a within ih =>
    obtain ⟨fresh, nodup⟩ := List.nodup_cons.1 nodup
    have strange : a ∉ part := fun mem => fresh (within.subset mem)
    rw [List.filter_cons_of_neg (by simpa using strange), ih nodup]
  | @cons_cons part whole a within ih =>
    obtain ⟨fresh, nodup⟩ := List.nodup_cons.1 nodup
    rw [List.filter_cons_of_pos (by simp)]
    congr 1
    calc whole.filter (· ∈ a :: part)
      _ = whole.filter (· ∈ part) := by
        refine List.filter_congr fun b mem => decide_eq_decide.2 ?_
        have differs : b ≠ a := fun same => fresh (same ▸ mem)
        simp [differs]
      _ = part := ih nodup

/-- Of two lists within one without repetition, the one with fewer members is within the other. -/
theorem sublist_of_subset (nodup : whole.Nodup) (within : part.Sublist whole)
    (within' : other.Sublist whole) (subset : part ⊆ other) : part.Sublist other := by
  have kept : part.filter (· ∈ other) = part := by
    simpa [List.filter_eq_self] using fun a mem => subset mem
  have filtered := within.filter (· ∈ other)
  rwa [kept, filter_mem_eq nodup within'] at filtered

end Sublist

end NameResolution
