import Mathlib.Data.List.Nodup
import NameResolution.OrderedMap.Lemmas

/-!
# Matching maps

Two maps match when they have the same keys and what they store under a key is related. The order
of the keys does not matter.

## Main statements

* `OrderedMap.Match.insertIfNew` — matching maps match after the same addition.
* `OrderedMap.perm_entries` — maps in which the same is found have the same entries.
-/

namespace NameResolution

universe u v w

namespace OrderedMap

variable {κ : Type u} {α : Type v} {β : Type w} [DecidableEq κ]

/-- The maps have the same keys, and `R` relates what they store under each key. -/
def Match (R : α → β → Prop) (m : OrderedMap κ α) (n : OrderedMap κ β) : Prop :=
  ∀ key, Option.Rel R (m.find? key) (n.find? key)

theorem match_empty (R : α → β → Prop) : Match R (∅ : OrderedMap κ α) (∅ : OrderedMap κ β) :=
  fun _ => .none

namespace Match

variable {R : α → β → Prop} {m : OrderedMap κ α} {n : OrderedMap κ β} {key : κ}

/-- What is found in one of the maps is related to what is found in the other one. -/
theorem cases (matching : m.Match R n) (key : κ) :
    (m.find? key = none ∧ n.find? key = none) ∨
      ∃ a b, m.find? key = some a ∧ n.find? key = some b ∧ R a b := by
  cases found : m.find? key with
  | none =>
    have same := found ▸ matching key
    cases found' : n.find? key with
    | none => exact .inl ⟨rfl, rfl⟩
    | some b => exact nomatch found' ▸ same
  | some a =>
    have same := found ▸ matching key
    cases found' : n.find? key with
    | none => exact nomatch found' ▸ same
    | some b =>
      rw [found'] at same
      cases same with
      | some related => exact .inr ⟨a, b, rfl, rfl, related⟩

theorem insertIfNew (matching : m.Match R n) (key : κ) {a : α} {b : β} (related : R a b) :
    (m.insertIfNew key a).Match R (n.insertIfNew key b) := by
  intro other
  rw [find?_insertIfNew, find?_insertIfNew]
  split
  · refine .some ?_
    rcases matching.cases key with ⟨new, new'⟩ | ⟨old, old', found, found', before⟩
    · rwa [new, new']
    · rwa [found, found']
  · exact matching other

end Match

/-! ## Equal contents -/

theorem perm_entries {m n : OrderedMap κ α} (same : ∀ key, m.find? key = n.find? key) :
    m.entries.Perm n.entries := by
  refine (List.perm_ext_iff_of_nodup (.of_map _ m.nodup_keys) (.of_map _ n.nodup_keys)).2 ?_
  rintro ⟨key, value⟩
  rw [← find?_eq_some_iff, ← find?_eq_some_iff, same]

end OrderedMap

end NameResolution
