import NameResolution.Name.Parse
import NameResolution.Proofs.Name.Pieces

/-!
# Written names

A name is written as its components with separators between them, and an optional separator in
front; a namespace that has components is also closed by a separator. Reading undoes this from the
outside to the inside: the separator in front, the one at the end, the components between.

## Main definitions

* `separatorIf` — a separator that may be missing.
* `IsBody` — what follows the optional leading separator of a text.

## Main statements

* `QualifiedName.text_eq`, `Namespace.text_eq` — the written form of either kind of name.
* `isBody_iff`, `readAnchor_append` — what the leading separator leaves.
* `eq_append_of_trim`, `trim_append` — what the trailing separator leaves.
* `readComponents_eq_error_iff`, `readComponents_eq_ok_iff` — when the components are read.
-/

namespace NameResolution

/-! ## Written forms -/

/-- A separator that may be missing at an end of a written name. -/
def separatorIf (present : Bool) : String := if present then separator else ""

theorem join_append_eq_intercalate (components : List String) (last : String) :
    String.join (components.map (· ++ separator)) ++ last =
      separator.intercalate (components ++ [last]) := by
  induction components with
  | nil => simp
  | cons component components ih =>
    rw [List.map_cons, String.join_cons, List.cons_append,
      String.intercalate_cons_of_ne_nil (by simp), ← ih]
    simp only [String.append_assoc]

theorem QualifiedName.text_eq (name : QualifiedName) :
    name.text = separatorIf name.isAbsolute ++ separator.intercalate name.components := by
  rw [QualifiedName.components, ← join_append_eq_intercalate, ← String.append_assoc]
  rfl

theorem Namespace.text_eq {ns : Namespace} (present : ns.path ≠ []) :
    ns.text = separatorIf ns.isAbsolute ++ separator.intercalate ns.path ++ separator := by
  have closed := join_append_eq_intercalate ns.path ""
  rw [String.append_empty, String.intercalate_append_of_ne_nil present (List.cons_ne_nil _ _),
    String.intercalate_singleton, String.append_empty] at closed
  rw [Namespace.text, closed, ← String.append_assoc]
  rfl

theorem Namespace.text_of_nil {ns : Namespace} (bare : ns.path = []) :
    ns.text = separatorIf ns.isAbsolute := by
  rw [Namespace.text, bare]
  exact String.append_empty

/-! ## The two readings of a path -/

theorem Namespace.toName?_eq_some_iff {ns : Namespace} {name : QualifiedName} :
    ns.toName? = some name ↔ name.toNamespace = ns := by
  obtain ⟨isAbsolute, path⟩ := ns
  rw [Namespace.toName?, Option.map_eq_some_iff]
  constructor
  · rintro ⟨last, found, rfl⟩
    obtain ⟨init, rfl⟩ := List.getLast?_eq_some_iff.1 found
    simp [QualifiedName.toNamespace, Namespace.append]
  · intro same
    obtain ⟨rfl, rfl⟩ := Namespace.mk.inj same
    exact ⟨name.last, by simp, by simp⟩

/-! ## The separators at the ends -/

/-- What follows the optional leading separator of a text. -/
def IsBody (text body : List Char) : Prop :=
  text = separator.toList ++ body ∨ text = body ∧ ¬separator.toList <+: text

section Ends

variable {text body inner : List Char} {isAbsolute closed : Bool}

theorem dropLeadingSeparator?_eq_some_iff :
    dropLeadingSeparator? text = some body ↔ text = separator.toList ++ body := by
  fun_cases dropLeadingSeparator? text <;> simp_all [toList_separator, eq_comm]

theorem dropTrailingSeparator?_eq_some_iff :
    dropTrailingSeparator? text = some body ↔ text = body ++ separator.toList := by
  rw [dropTrailingSeparator?, ← toList_separator]
  split
  · next ends =>
    obtain ⟨front, rfl⟩ := List.isSuffixOf_iff_suffix.1 ends
    simp [toList_separator]
  · next unclosed =>
    refine iff_of_false nofun ?_
    rintro rfl
    exact unclosed (List.isSuffixOf_iff_suffix.2 (List.suffix_append ..))

theorem isSome_dropTrailingSeparator? :
    (dropTrailingSeparator? text).isSome ↔ separator.toList <:+ text := by
  rw [Option.isSome_iff_exists]
  exact exists_congr fun front => dropTrailingSeparator?_eq_some_iff.trans eq_comm

theorem readAnchor_true_iff : readAnchor text = (true, body) ↔ text = separator.toList ++ body := by
  rw [← dropLeadingSeparator?_eq_some_iff, readAnchor]
  split <;> simp_all

theorem readAnchor_false_iff :
    readAnchor text = (false, body) ↔ text = body ∧ ¬separator.toList <+: text := by
  have absent : dropLeadingSeparator? text = none ↔ ¬separator.toList <+: text := by
    simp [Option.eq_none_iff_forall_ne_some, dropLeadingSeparator?_eq_some_iff, List.IsPrefix,
      eq_comm]
  rw [← absent, readAnchor]
  split <;> simp_all

theorem isBody_iff : IsBody text body ↔ ∃ isAbsolute, readAnchor text = (isAbsolute, body) := by
  rw [IsBody, ← readAnchor_true_iff, ← readAnchor_false_iff, Bool.exists_bool, or_comm]

theorem eq_append_of_readAnchor (anchored : readAnchor text = (isAbsolute, body)) :
    text = (separatorIf isAbsolute).toList ++ body := by
  cases isAbsolute with
  | true => exact readAnchor_true_iff.1 anchored
  | false => exact (readAnchor_false_iff.1 anchored).1

theorem readAnchor_append (unanchored : ¬separator.toList <+: body) :
    readAnchor ((separatorIf isAbsolute).toList ++ body) = (isAbsolute, body) := by
  cases isAbsolute with
  | true => exact readAnchor_true_iff.2 rfl
  | false => exact readAnchor_false_iff.2 ⟨rfl, unanchored⟩

/-- What is left of a text without the separator at its end. -/
theorem eq_append_of_trim (trimmed : (dropTrailingSeparator? body).getD body = inner) :
    ∃ closed, body = inner ++ (separatorIf closed).toList := by
  cases found : dropTrailingSeparator? body with
  | none =>
    rw [found, Option.getD_none] at trimmed
    exact ⟨false, trimmed.trans (List.append_nil inner).symm⟩
  | some front =>
    rw [found, Option.getD_some] at trimmed
    exact ⟨true, trimmed ▸ dropTrailingSeparator?_eq_some_iff.1 found⟩

theorem trim_append (unclosed : ¬separator.toList <:+ inner)
    (body_eq : body = inner ++ (separatorIf closed).toList) :
    (dropTrailingSeparator? body).getD body = inner := by
  cases closed with
  | true => rw [dropTrailingSeparator?_eq_some_iff.2 body_eq, Option.getD_some]
  | false =>
    obtain rfl : body = inner := body_eq.trans (List.append_nil inner)
    rw [← isSome_dropTrailingSeparator?, Option.not_isSome_iff_eq_none] at unclosed
    rw [unclosed, Option.getD_none]

end Ends

/-! ## Reading components -/

section Components

variable {text : String} {body : List Char} {components : List String}

/-- The leftmost piece that is no component. -/
theorem find?_segments_eq_some_iff {piece : List Char} :
    (segments body).find? (fun piece => !isIdentifier piece) = some piece ↔ ∃ before after,
      SplitsInto body (before ++ piece :: after) ∧ (∀ earlier ∈ before, IsComponent earlier) ∧
        ¬IsComponent piece := by
  simp only [splitsInto_iff, ← isIdentifier_iff]
  rw [List.find?_eq_some_iff_append]
  constructor
  · rintro ⟨ill, before, after, split, well⟩
    exact ⟨before, after, split, by simpa using well, by simpa using ill⟩
  · rintro ⟨before, after, split, well, ill⟩
    exact ⟨by simpa using ill, before, after, split, by simpa using well⟩

theorem find?_segments_eq_none_iff :
    (segments body).find? (fun piece => !isIdentifier piece) = none ↔
      ∀ piece ∈ segments body, IsComponent piece := by
  simp [← isIdentifier_iff]

/-- The leftmost ill-formed piece is reported, with the whole text. -/
theorem readComponents_eq_error_iff {error : NameError} :
    readComponents text body = .error error ↔ ∃ before piece after,
      SplitsInto body (before ++ piece :: after) ∧ (∀ earlier ∈ before, IsComponent earlier) ∧
        ¬IsComponent piece ∧ error = .invalidComponent (String.ofList piece) text := by
  have reported : readComponents text body = .error error ↔ ∃ piece,
      (segments body).find? (fun piece => !isIdentifier piece) = some piece ∧
        error = .invalidComponent (String.ofList piece) text := by
    rw [readComponents]
    cases (segments body).find? fun piece => !isIdentifier piece <;> simp [eq_comm]
  rw [reported]
  constructor
  · rintro ⟨piece, found, rfl⟩
    obtain ⟨before, after, split, well, ill⟩ := find?_segments_eq_some_iff.1 found
    exact ⟨before, piece, after, split, well, ill, rfl⟩
  · rintro ⟨before, piece, after, split, well, ill, rfl⟩
    exact ⟨piece, find?_segments_eq_some_iff.2 ⟨before, after, split, well, ill⟩, rfl⟩

/-- What is read are components, and with separators between them they are what was read. -/
theorem readComponents_eq_ok_iff :
    readComponents text body = .ok components ↔
      components ≠ [] ∧ (∀ component ∈ components, IsComponent component.toList) ∧
        separator.toList.intercalate (components.map String.toList) = body := by
  have accepted : readComponents text body = .ok components ↔
      (∀ piece ∈ segments body, IsComponent piece) ∧
        (segments body).map String.ofList = components := by
    rw [← find?_segments_eq_none_iff, readComponents]
    cases (segments body).find? fun piece => !isIdentifier piece <;> simp
  rw [accepted]
  constructor
  · rintro ⟨well, rfl⟩
    refine ⟨by simpa using segments_ne_nil body, by simpa using well, ?_⟩
    simpa using (splitsInto_segments body).intercalate_eq
  · rintro ⟨present, well, rfl⟩
    have split : SplitsInto (separator.toList.intercalate (components.map String.toList))
        (components.map String.toList) :=
      splitsInto_intercalate (by simpa using present)
        (by simpa using fun component mem => colon_not_mem (well component mem))
    rw [split.segments_eq]
    exact ⟨by simpa using well, by simp⟩

/-- Joined components have no separator at either end, whatever stands next to them. -/
theorem ends_of_components (present : components ≠ [])
    (well : ∀ component ∈ components, IsComponent component.toList)
    (joined : separator.toList.intercalate (components.map String.toList) = body) :
    body ≠ [] ∧ (∀ back, ¬separator.toList <+: body ++ back) ∧
      ∀ front, ¬separator.toList <:+ front ++ body := by
  have well' : ∀ piece ∈ components.map String.toList, IsComponent piece := by simpa using well
  obtain ⟨⟨first, starts, ne_first⟩, last, ends, ne_last⟩ :=
    exists_ends_of_components (by simpa using present) well'
  rw [joined] at starts ends
  refine ⟨fun empty => ?_, ?_, ?_⟩
  · cases empty ▸ starts
  · rintro back ⟨rest, same⟩
    have starts' : (separator.toList ++ rest).head? = some first := by
      rw [same, List.head?_append, starts, Option.some_or]
    exact ne_first (Option.some.inj starts').symm
  · rintro front ⟨rest, same⟩
    have ends' : (rest ++ separator.toList).getLast? = some last := by
      rw [same, List.getLast?_append, ends, Option.some_or]
    rw [List.getLast?_append] at ends'
    exact ne_last (Option.some.inj ends').symm

end Components

end NameResolution
