import Mathlib.Data.List.Infix
import NameResolution.Name.Component

/-!
# Pieces of a written name

What stands between the separators of a text, told without the function that finds it: a separator
is the earliest one in what is left of the text, and the next one is looked for behind it. Pieces
that are components have no colons, so that joining and splitting undo each other on them.

## Main definitions

* `IsComponent` — a text has the form `[A-Za-z_][A-Za-z0-9_]*`.
* `SplitsInto` — the pieces of a text between its separators.

## Main statements

* `splitsInto_iff` — the pieces that are found are those of the text, and no others.
* `SplitsInto.intercalate_eq`, `splitsInto_intercalate` — splitting and joining.
-/

namespace NameResolution

variable {text piece rest : List Char} {pieces : List (List Char)}

/-! ## Components -/

/-- A letter of ASCII. -/
def IsLetter (c : Char) : Prop := 'A' ≤ c ∧ c ≤ 'Z' ∨ 'a' ≤ c ∧ c ≤ 'z'

/-- A digit of ASCII. -/
def IsDigit (c : Char) : Prop := '0' ≤ c ∧ c ≤ '9'

/-- A letter or an underscore, then letters, digits and underscores. -/
def IsComponent (piece : List Char) : Prop :=
  ∃ first rest, piece = first :: rest ∧ (IsLetter first ∨ first = '_') ∧
    ∀ c ∈ rest, IsLetter c ∨ IsDigit c ∨ c = '_'

theorem isAlpha_iff {c : Char} : c.isAlpha ↔ IsLetter c := by
  have upper : c.isUpper ↔ 'A' ≤ c ∧ c ≤ 'Z' := decide_eq_true_iff
  have lower : c.isLower ↔ 'a' ≤ c ∧ c ≤ 'z' :=
    Bool.and_eq_true_iff.trans (and_congr decide_eq_true_iff decide_eq_true_iff)
  exact Bool.or_eq_true_iff.trans (or_congr upper lower)

theorem isDigit_iff {c : Char} : c.isDigit ↔ IsDigit c := by
  simp [Char.isDigit, IsDigit, Char.le_def]

theorem isIdentifier_iff : isIdentifier piece ↔ IsComponent piece := by
  cases piece with
  | nil => simp [isIdentifier, IsComponent]
  | cons first rest =>
    simp [isIdentifier, isIdentifierStart, isIdentifierRest, Char.isAlphanum, IsComponent,
      isAlpha_iff, isDigit_iff, or_assoc]

instance : DecidablePred IsComponent := fun _ => decidable_of_iff _ isIdentifier_iff

theorem colon_not_mem (component : IsComponent piece) : ':' ∉ piece := by
  rw [← isIdentifier_iff] at component
  cases piece with
  | nil => exact List.not_mem_nil
  | cons first rest =>
    obtain ⟨start, follow⟩ : isIdentifierStart first ∧ ∀ c ∈ rest, isIdentifierRest c := by
      simpa [isIdentifier] using component
    intro mem
    rcases List.mem_cons.1 mem with rfl | mem
    · exact absurd start (by decide)
    · exact absurd (follow ':' mem) (by decide)

theorem IsComponent.ne_nil (component : IsComponent piece) : piece ≠ [] := by
  rintro rfl
  obtain ⟨_, _, empty, -⟩ := component
  cases empty

/-! ## Splitting -/

/-- The pieces of a text between its separators. The first piece ends where the earliest separator
starts, and the others are those of what comes behind it. -/
inductive SplitsInto : List Char → List (List Char) → Prop
  | whole {piece : List Char} (none : ¬separator.toList <:+: piece) : SplitsInto piece [piece]
  | cut {piece rest : List Char} {pieces : List (List Char)}
      (earliest : ¬separator.toList <:+: piece ++ [':']) (others : SplitsInto rest pieces) :
      SplitsInto (piece ++ separator.toList ++ rest) (piece :: pieces)

theorem toList_separator : separator.toList = [':', ':'] := rfl

theorem separator_prefix_cons_iff {c : Char} :
    separator.toList <+: c :: rest ↔ c = ':' ∧ ∃ rest', rest = ':' :: rest' := by
  cases rest <;> simp [toList_separator, List.cons_prefix_cons, eq_comm]

/-- Whether a separator starts here is seen from the next two characters. -/
theorem separator_prefix_of_append {front back : List Char} (long : 2 ≤ front.length)
    (starts : separator.toList <+: front ++ back) : separator.toList <+: front :=
  List.prefix_of_prefix_length_le starts (List.prefix_append front back) long

theorem segments_cons {c : Char} (apart : ¬separator.toList <+: c :: rest)
    (split : segments rest = piece :: pieces) : segments (c :: rest) = (c :: piece) :: pieces := by
  rw [separator_prefix_cons_iff] at apart
  rw [segments.eq_3 c rest fun rest' colon colon' => apart ⟨colon, rest', colon'⟩, split]

/-- The pieces of a text are those that are found in it. -/
theorem SplitsInto.segments_eq (split : SplitsInto text pieces) : segments text = pieces := by
  induction split with
  | @whole piece none =>
    induction piece with
    | nil => rfl
    | cons c piece ih =>
      rw [List.infix_cons_iff, not_or] at none
      exact segments_cons none.1 (ih none.2)
  | @cut piece rest pieces earliest _ others =>
    induction piece with
    | nil => exact congrArg _ others
    | cons c piece ih =>
      rw [List.cons_append, List.infix_cons_iff, not_or] at earliest
      have apart : ¬separator.toList <+: c :: (piece ++ separator.toList ++ rest) := by
        have regroup : c :: (piece ++ separator.toList ++ rest) =
            (c :: (piece ++ [':'])) ++ ':' :: rest := by simp [toList_separator]
        rw [regroup]
        exact fun starts => earliest.1 (separator_prefix_of_append (by simp) starts)
      exact segments_cons apart (ih earliest.2)

theorem splitsInto_segments (text : List Char) : SplitsInto text (segments text) := by
  fun_induction segments text with
  | case1 => exact .whole (by decide)
  | case2 rest ih =>
    have earliest : ¬separator.toList <:+: [] ++ [':'] := by decide
    exact .cut earliest ih
  | case3 c rest _ none => exact absurd none (segments_ne_nil rest)
  | case4 c rest apart piece pieces found ih =>
    have apart : ¬separator.toList <+: c :: rest := by
      rw [separator_prefix_cons_iff]
      exact fun ⟨colon, rest', colon'⟩ => apart rest' colon colon'
    rw [found] at ih
    cases ih with
    | whole none =>
      exact .whole (by rw [List.infix_cons_iff, not_or]; exact ⟨apart, none⟩)
    | @cut _ rest' _ earliest others =>
      have earliest' : ¬separator.toList <:+: c :: piece ++ [':'] := by
        rw [List.cons_append, List.infix_cons_iff, not_or]
        refine ⟨fun starts => apart (starts.trans ⟨':' :: rest', ?_⟩), earliest⟩
        simp [toList_separator]
      exact .cut earliest' others

/-- A text has one list of pieces, which is the one that is found. -/
theorem splitsInto_iff : SplitsInto text pieces ↔ segments text = pieces :=
  ⟨SplitsInto.segments_eq, fun found => found ▸ splitsInto_segments text⟩

/-! ## Joining -/

theorem SplitsInto.ne_nil (split : SplitsInto text pieces) : pieces ≠ [] := by
  cases split <;> exact List.cons_ne_nil _ _

/-- The pieces of a text with separators between them are the text. -/
theorem SplitsInto.intercalate_eq (split : SplitsInto text pieces) :
    separator.toList.intercalate pieces = text := by
  induction split with
  | whole => exact List.intercalate_singleton
  | cut _ others ih => rw [List.intercalate_cons_of_ne_nil others.ne_nil, ih]

/-- Texts without colons are the pieces of what they are joined to. -/
theorem splitsInto_intercalate (present : pieces ≠ []) (plain : ∀ piece ∈ pieces, ':' ∉ piece) :
    SplitsInto (separator.toList.intercalate pieces) pieces := by
  induction pieces with
  | nil => exact absurd rfl present
  | cons piece pieces ih =>
    obtain ⟨plain_first, plain_rest⟩ := List.forall_mem_cons.1 plain
    -- A piece and one more colon have too few colons for a separator.
    have earliest : ¬separator.toList <:+: piece ++ [':'] := by
      intro inside
      have colons := inside.sublist.count_le ':'
      rw [List.count_append, List.count_eq_zero_of_not_mem plain_first] at colons
      exact absurd colons (by decide)
    by_cases last : pieces = []
    · subst last
      rw [List.intercalate_singleton]
      exact .whole fun inside => earliest (inside.trans (List.prefix_append ..).isInfix)
    · rw [List.intercalate_cons_of_ne_nil last]
      exact .cut earliest (ih last plain_rest)

/-- Components that are joined neither start nor end with a colon. -/
theorem exists_ends_of_components (present : pieces ≠ [])
    (components : ∀ piece ∈ pieces, IsComponent piece) :
    (∃ c, (separator.toList.intercalate pieces).head? = some c ∧ c ≠ ':') ∧
      ∃ c, (separator.toList.intercalate pieces).getLast? = some c ∧ c ≠ ':' := by
  induction pieces with
  | nil => exact absurd rfl present
  | cons piece pieces ih =>
    obtain ⟨component, others⟩ := List.forall_mem_cons.1 components
    have differs : ∀ c ∈ piece, c ≠ ':' := fun c mem same => colon_not_mem component (same ▸ mem)
    obtain ⟨first, starts⟩ := Option.isSome_iff_exists.1 (List.isSome_head?.2 component.ne_nil)
    obtain ⟨final, ends⟩ := Option.isSome_iff_exists.1 (List.getLast?_isSome.2 component.ne_nil)
    by_cases last : pieces = []
    · subst last
      rw [List.intercalate_singleton]
      exact ⟨⟨first, starts, differs first (List.mem_of_head? starts)⟩,
        final, ends, differs final (List.mem_of_getLast? ends)⟩
    · obtain ⟨-, final', ends', differs'⟩ := ih last others
      rw [List.intercalate_cons_of_ne_nil last]
      refine ⟨⟨first, ?_, differs first (List.mem_of_head? starts)⟩, final', ?_, differs'⟩
      · rw [List.append_assoc, List.head?_append, starts, Option.some_or]
      · rw [List.getLast?_append, ends', Option.some_or]

end NameResolution
