import NameResolution.Proofs.Name.Written

/-!
# Reading written names

A relation between texts and what they are read as stands beside each reader, and the reader is
proved to compute it. Both kinds of names are read back from their written forms. A namespace may
do without the separator at its end, and one text is read although nothing is written that way: two
separators in a row are taken for the leading and the trailing one, with no components between.

## Main definitions

* `QualifiedName.Reading` — what reading a text as a qualified name comes to.
* `Namespace.Spelling` — the texts that are read as a namespace.
* `Namespace.IsWritten` — the texts that are meant to be read as namespaces.

## Main statements

* `QualifiedName.parse_eq_iff`, `Namespace.parse_eq_ok_iff` — the readers compute the relations.
* `reading_inverts_writing` — what is read as a name, the three errors, and the way back.
* `namespace_read_iff_written`, `doubled_separator_read` — what is read as a namespace.
-/

namespace NameResolution

variable {text : String} {isAbsolute : Bool} {body : List Char}

/-! ## Qualified names -/

namespace QualifiedName

variable {name : QualifiedName} {result : Except NameError QualifiedName}

/-- What reading a text as a qualified name comes to. -/
inductive Reading (text : String) : Except NameError QualifiedName → Prop
  | empty (nothing : text = "" ∨ text = "::") : Reading text (.error .empty)
  | closed {body : List Char} (inside : IsBody text.toList body) (present : body ≠ [])
      (ends : separator.toList <:+ body) : Reading text (.error (.trailingSeparator text))
  | illFormed {body piece : List Char} {before after : List (List Char)}
      (inside : IsBody text.toList body) (present : body ≠ [])
      (unclosed : ¬separator.toList <:+ body) (split : SplitsInto body (before ++ piece :: after))
      (well : ∀ earlier ∈ before, IsComponent earlier) (ill : ¬IsComponent piece) :
      Reading text (.error (.invalidComponent (String.ofList piece) text))
  | name {name : QualifiedName} (written : name.text = text)
      (well : ∀ component ∈ name.components, IsComponent component.toList) : Reading text (.ok name)

theorem components_ne_nil (name : QualifiedName) : name.components ≠ [] :=
  List.append_ne_nil_of_right_ne_nil _ (List.cons_ne_nil _ _)

theorem toList_text (name : QualifiedName) : name.text.toList =
    (separatorIf name.isAbsolute).toList ++
      separator.toList.intercalate (name.components.map String.toList) := by
  rw [text_eq, String.toList_append, String.toList_intercalate]

theorem parse_eq (anchored : readAnchor text.toList = (isAbsolute, body)) :
    parse text =
      if body = [] then .error .empty
      else if separator.toList <:+ body then .error (.trailingSeparator text)
      else match readComponents text body with
        | .error error => .error error
        | .ok components =>
          match (⟨isAbsolute, components⟩ : Namespace).toName? with
          | some name => .ok name
          | none => .error .empty := by
  simp only [parse, anchored, isSome_dropTrailingSeparator?]
  cases readComponents text body with
  | error => split_ifs <;> rfl
  | ok components =>
    simp only [bind, Except.bind]
    cases (⟨isAbsolute, components⟩ : Namespace).toName? <;> rfl

theorem reading_parse (text : String) : Reading text (parse text) := by
  rcases anchored : readAnchor text.toList with ⟨isAbsolute, body⟩
  have around := eq_append_of_readAnchor anchored
  have inside : IsBody text.toList body := isBody_iff.2 ⟨isAbsolute, anchored⟩
  rw [parse_eq anchored]
  split_ifs with nothing ends
  · rw [nothing, List.append_nil, String.toList_inj] at around
    refine .empty ?_
    cases isAbsolute
    · exact .inl around
    · exact .inr around
  · exact .closed inside nothing ends
  · cases read : readComponents text body with
    | error error =>
      obtain ⟨_, _, _, split, well, ill, rfl⟩ := readComponents_eq_error_iff.1 read
      exact .illFormed inside nothing ends split well ill
    | ok components =>
      obtain ⟨present, well, joined⟩ := readComponents_eq_ok_iff.1 read
      obtain ⟨name, found⟩ :
          ∃ name, (⟨isAbsolute, components⟩ : Namespace).toName? = some name := by
        simpa [Namespace.toName?, ← Option.isSome_iff_exists] using present
      obtain ⟨rfl, rfl⟩ := Namespace.mk.inj (Namespace.toName?_eq_some_iff.1 found)
      simp only [found]
      refine .name (String.toList_inj.1 ?_) well
      rw [around, ← joined]
      exact toList_text name

theorem Reading.parse_eq (reading : Reading text result) : parse text = result := by
  cases reading with
  | empty nothing => rcases nothing with rfl | rfl <;> rfl
  | closed inside present ends =>
    obtain ⟨_, anchored⟩ := isBody_iff.1 inside
    rw [QualifiedName.parse_eq anchored, if_neg present, if_pos ends]
  | @illFormed body piece _ _ inside present unclosed split well ill =>
    obtain ⟨_, anchored⟩ := isBody_iff.1 inside
    have read : readComponents text body = .error (.invalidComponent (String.ofList piece) text) :=
      readComponents_eq_error_iff.2 ⟨_, _, _, split, well, ill, rfl⟩
    rw [QualifiedName.parse_eq anchored, if_neg present, if_neg unclosed, read]
  | @name name written well =>
    generalize joined : separator.toList.intercalate (name.components.map String.toList) = body
    obtain ⟨present, unanchored, unclosed⟩ := ends_of_components name.components_ne_nil well joined
    have anchored : readAnchor text.toList = (name.isAbsolute, body) := by
      rw [← written, toList_text, joined]
      exact readAnchor_append (List.append_nil body ▸ unanchored [])
    have unclosed : ¬separator.toList <:+ body := unclosed []
    have read : readComponents text body = .ok name.components :=
      readComponents_eq_ok_iff.2 ⟨name.components_ne_nil, well, joined⟩
    have found : (⟨name.isAbsolute, name.components⟩ : Namespace).toName? = some name :=
      Namespace.toName?_eq_some_iff.2 rfl
    rw [QualifiedName.parse_eq anchored, if_neg present, if_neg unclosed, read]
    simp only [found]

/-- A text is read in one way. -/
theorem parse_eq_iff : parse text = result ↔ Reading text result :=
  ⟨fun parsed => parsed ▸ reading_parse text, Reading.parse_eq⟩

theorem parse_eq_ok_iff : parse text = .ok name ↔
    name.text = text ∧ ∀ component ∈ name.components, IsComponent component.toList := by
  rw [parse_eq_iff]
  constructor
  · rintro (_ | _ | _ | ⟨written, well⟩)
    exact ⟨written, well⟩
  · rintro ⟨written, well⟩
    exact .name written well

theorem parse_eq_empty_iff : parse text = .error .empty ↔ text = "" ∨ text = "::" := by
  rw [parse_eq_iff]
  constructor
  · rintro ⟨nothing⟩
    exact nothing
  · exact .empty

theorem parse_eq_trailingSeparator_iff {reported : String} :
    parse text = .error (.trailingSeparator reported) ↔ reported = text ∧
      ∃ body, IsBody text.toList body ∧ body ≠ [] ∧ separator.toList <:+ body := by
  rw [parse_eq_iff]
  constructor
  · rintro (_ | ⟨inside, present, ends⟩)
    exact ⟨rfl, _, inside, present, ends⟩
  · rintro ⟨rfl, _, inside, present, ends⟩
    exact .closed inside present ends

theorem parse_eq_invalidComponent_iff {component reported : String} :
    parse text = .error (.invalidComponent component reported) ↔ reported = text ∧
      ∃ body before piece after, IsBody text.toList body ∧ body ≠ [] ∧
        ¬separator.toList <:+ body ∧ SplitsInto body (before ++ piece :: after) ∧
          (∀ earlier ∈ before, IsComponent earlier) ∧ ¬IsComponent piece ∧
            component = String.ofList piece := by
  rw [parse_eq_iff]
  constructor
  · rintro (_ | _ | ⟨inside, present, unclosed, split, well, ill⟩)
    exact ⟨rfl, _, _, _, _, inside, present, unclosed, split, well, ill, rfl⟩
  · rintro ⟨rfl, _, _, _, _, inside, present, unclosed, split, well, ill, rfl⟩
    exact .illFormed inside present unclosed split well ill

/-- A text is read as some name if it is put together from components. -/
theorem exists_parse_eq_ok_iff : (∃ name, parse text = .ok name) ↔
    ∃ isAbsolute components, components ≠ [] ∧
      (∀ component ∈ components, IsComponent component.toList) ∧
        text = separatorIf isAbsolute ++ separator.intercalate components := by
  constructor
  · rintro ⟨name, parsed⟩
    obtain ⟨rfl, well⟩ := parse_eq_ok_iff.1 parsed
    exact ⟨name.isAbsolute, name.components, name.components_ne_nil, well, name.text_eq⟩
  · rintro ⟨isAbsolute, components, present, well, rfl⟩
    obtain ⟨init, last, rfl⟩ := (List.eq_nil_or_concat' components).resolve_left present
    exact ⟨⟨⟨isAbsolute, init⟩, last⟩, parse_eq_ok_iff.2 ⟨text_eq _, well⟩⟩

end QualifiedName

/-! ## Namespaces -/

namespace Namespace

variable {ns : Namespace} {inner : List Char}

/-- The texts that are read as a namespace. -/
inductive Spelling (text : String) : Namespace → Prop
  | bare {isAbsolute : Bool} (only : text = separatorIf isAbsolute) : Spelling text ⟨isAbsolute, []⟩
  /-- Nothing is left between the separators at the ends. -/
  | doubled (only : text = "::::") : Spelling text .root
  | path {isAbsolute : Bool} {components : List String} (closed : Bool) (present : components ≠ [])
      (well : ∀ component ∈ components, IsComponent component.toList)
      (written : text = separatorIf isAbsolute ++ separator.intercalate components ++
        separatorIf closed) :
      Spelling text ⟨isAbsolute, components⟩

theorem parse_eq (anchored : readAnchor text.toList = (isAbsolute, body))
    (trimmed : (dropTrailingSeparator? body).getD body = inner) :
    parse text =
      if inner = [] then .ok ⟨isAbsolute, []⟩
      else (readComponents text inner).map fun components => ⟨isAbsolute, components⟩ := by
  simp only [parse, anchored, trimmed]
  cases readComponents text inner <;> rfl

theorem spelling_of_parse (parsed : parse text = .ok ns) : Spelling text ns := by
  rcases anchored : readAnchor text.toList with ⟨isAbsolute, body⟩
  generalize trimmed : (dropTrailingSeparator? body).getD body = inner
  obtain ⟨closed, rfl⟩ := eq_append_of_trim trimmed
  have around := eq_append_of_readAnchor anchored
  rw [parse_eq anchored trimmed] at parsed
  split_ifs at parsed with nothing
  · cases parsed
    subst nothing
    have written : text = separatorIf isAbsolute ++ separatorIf closed := by
      rw [← String.toList_inj, around, String.toList_append, List.nil_append]
    cases isAbsolute <;> cases closed
    · exact .bare written
    · -- A separator that stands alone is the leading one.
      cases written
      exact absurd anchored (by decide)
    · exact .bare written
    · exact .doubled written
  · cases read : readComponents text inner with
    | error =>
      rw [read] at parsed
      cases parsed
    | ok components =>
      rw [read] at parsed
      cases parsed
      obtain ⟨present, well, joined⟩ := readComponents_eq_ok_iff.1 read
      refine .path closed present well (String.toList_inj.1 ?_)
      rw [around, ← joined]
      simp

theorem Spelling.parse_eq (spelling : Spelling text ns) : parse text = .ok ns := by
  cases spelling with
  | @bare isAbsolute only => cases isAbsolute <;> cases only <;> rfl
  | doubled only => exact only ▸ rfl
  | @path isAbsolute components closed present well written =>
    generalize joined : separator.toList.intercalate (components.map String.toList) = inner
    obtain ⟨filled, unanchored, unclosed⟩ := ends_of_components present well joined
    have around : text.toList =
        (separatorIf isAbsolute).toList ++ (inner ++ (separatorIf closed).toList) := by
      rw [written, ← joined]
      simp
    have anchored : readAnchor text.toList =
        (isAbsolute, inner ++ (separatorIf closed).toList) := by
      rw [around]
      exact readAnchor_append (unanchored _)
    have read : readComponents text inner = .ok components :=
      readComponents_eq_ok_iff.2 ⟨present, well, joined⟩
    have unclosed : ¬separator.toList <:+ inner := unclosed []
    rw [Namespace.parse_eq anchored (trim_append unclosed rfl), if_neg filled, read]
    rfl

theorem parse_eq_ok_iff : parse text = .ok ns ↔ Spelling text ns :=
  ⟨spelling_of_parse, Spelling.parse_eq⟩

/-- Only a component that is ill-formed is reported, with the whole text. -/
theorem eq_invalidComponent_of_parse {error : NameError} (failed : parse text = .error error) :
    ∃ component, error = .invalidComponent component text := by
  rcases anchored : readAnchor text.toList with ⟨isAbsolute, body⟩
  rw [parse_eq anchored rfl] at failed
  split_ifs at failed
  cases read : readComponents text ((dropTrailingSeparator? body).getD body) with
  | error =>
    obtain ⟨_, piece, _, -, -, -, rfl⟩ := readComponents_eq_error_iff.1 read
    rw [read] at failed
    cases failed
    exact ⟨String.ofList piece, rfl⟩
  | ok =>
    rw [read] at failed
    cases failed

theorem spelling_text (well : ∀ component ∈ ns.path, IsComponent component.toList) :
    Spelling ns.text ns := by
  obtain ⟨isAbsolute, path⟩ := ns
  by_cases present : path = []
  · subst present
    exact .bare (text_of_nil rfl)
  · exact .path true present well (text_eq present)

/-- The texts that are meant to be read as namespaces: nothing, a separator, or components with
separators between them, perhaps one in front of them and perhaps one behind. -/
def IsWritten (text : String) : Prop :=
  text = "" ∨ text = "::" ∨ ∃ isAbsolute components closed, components ≠ [] ∧
    (∀ component ∈ components, IsComponent component.toList) ∧
      text = separatorIf isAbsolute ++ separator.intercalate components ++ separatorIf closed

theorem exists_spelling_iff : (∃ ns, Spelling text ns) ↔ IsWritten text ∨ text = "::::" := by
  constructor
  · rintro ⟨_, @⟨isAbsolute, only⟩ | only |
      @⟨isAbsolute, components, closed, present, well, written⟩⟩
    · cases isAbsolute
      · exact .inl (.inl only)
      · exact .inl (.inr (.inl only))
    · exact .inr only
    · exact .inl (.inr (.inr ⟨isAbsolute, components, closed, present, well, written⟩))
  · rintro ((only | only | ⟨isAbsolute, components, closed, present, well, written⟩) | only)
    · exact ⟨⟨false, []⟩, .bare only⟩
    · exact ⟨⟨true, []⟩, .bare only⟩
    · exact ⟨_, .path closed present well written⟩
    · exact ⟨_, .doubled only⟩

/-- Two separators in a row are read without components, so that none are written in them. -/
theorem not_isWritten_doubled : ¬IsWritten "::::" := by
  rintro (only | only | ⟨isAbsolute, components, closed, present, well, written⟩)
  · exact absurd only (by decide)
  · exact absurd only (by decide)
  · have parsed := (Spelling.path closed present well written).parse_eq
    have parsed_root : parse "::::" = .ok .root := rfl
    cases parsed.symm.trans parsed_root
    exact present rfl

/-- What a namespace is written as, told from the text it was read from. -/
theorem Spelling.text_eq (spelling : Spelling text ns) (single : text ≠ "::::") :
    ns.text =
      if ns.path ≠ [] ∧ ¬separator.toList <:+ text.toList then text ++ separator else text := by
  cases spelling with
  | bare only =>
    rw [if_neg fun unclosed => unclosed.1 rfl, text_of_nil rfl, only]
  | doubled only => exact absurd only single
  | @path isAbsolute components closed present well written =>
    cases closed with
    | true =>
      have closed : separator.toList <:+ text.toList := by
        rw [written, String.toList_append]
        exact List.suffix_append ..
      rw [if_neg fun unclosed => unclosed.2 closed, Namespace.text_eq present]
      exact written.symm
    | false =>
      have bare : text = separatorIf isAbsolute ++ separator.intercalate components :=
        written.trans String.append_empty
      have unclosed : ¬separator.toList <:+ text.toList := by
        obtain ⟨-, -, unclosed⟩ := ends_of_components present well rfl
        rw [bare, String.toList_append, String.toList_intercalate]
        exact unclosed _
      rw [if_pos ⟨present, unclosed⟩, Namespace.text_eq present, bare]

end Namespace

/-! ## Reading and writing -/

/-- A text is read as a qualified name if it is the written form of one with well-formed
components, and then it is the form of the name that was read. Without anything behind the optional
leading separator there is no name, with a separator at the end there is none either, and otherwise
the leftmost ill-formed piece is reported. Both kinds of names are read back from their forms. -/
theorem reading_inverts_writing :
    (∀ text,
      ((∃ name, QualifiedName.parse text = .ok name) ↔
        ∃ isAbsolute components, components ≠ [] ∧
          (∀ component ∈ components, IsComponent component.toList) ∧
            text = separatorIf isAbsolute ++ separator.intercalate components) ∧
      (∀ name, QualifiedName.parse text = .ok name → name.text = text) ∧
      (QualifiedName.parse text = .error .empty ↔ text = "" ∨ text = "::") ∧
      (∀ reported, QualifiedName.parse text = .error (.trailingSeparator reported) ↔
        reported = text ∧ ∃ body, IsBody text.toList body ∧ body ≠ [] ∧
          separator.toList <:+ body) ∧
      ∀ component reported,
        QualifiedName.parse text = .error (.invalidComponent component reported) ↔
          reported = text ∧ ∃ body before piece after, IsBody text.toList body ∧ body ≠ [] ∧
            ¬separator.toList <:+ body ∧ SplitsInto body (before ++ piece :: after) ∧
              (∀ earlier ∈ before, IsComponent earlier) ∧ ¬IsComponent piece ∧
                component = String.ofList piece) ∧
    (∀ name : QualifiedName, (∀ component ∈ name.components, IsComponent component.toList) →
      QualifiedName.parse name.text = .ok name) ∧
    ∀ ns : Namespace, (∀ component ∈ ns.path, IsComponent component.toList) →
      Namespace.parse ns.text = .ok ns := by
  refine ⟨fun text => ⟨QualifiedName.exists_parse_eq_ok_iff, ?_,
    QualifiedName.parse_eq_empty_iff, fun _ => QualifiedName.parse_eq_trailingSeparator_iff,
    fun _ _ => QualifiedName.parse_eq_invalidComponent_iff⟩, ?_, ?_⟩
  · intro name parsed
    exact (QualifiedName.parse_eq_ok_iff.1 parsed).1
  · intro name well
    exact QualifiedName.parse_eq_ok_iff.2 ⟨rfl, well⟩
  · intro ns well
    exact (Namespace.spelling_text well).parse_eq

theorem reading_inverts_writing_nested :
    (QualifiedName.parse "::Geo::unit_2" = .ok ⟨⟨true, ["Geo"]⟩, "unit_2"⟩ ∧
      (⟨⟨true, ["Geo"]⟩, "unit_2"⟩ : QualifiedName).text = "::Geo::unit_2") ∧
    QualifiedName.parse (⟨⟨false, ["Geo"]⟩, "_Unit"⟩ : QualifiedName).text =
      .ok ⟨⟨false, ["Geo"]⟩, "_Unit"⟩ ∧
    Namespace.parse (⟨true, ["Geo", "Unit"]⟩ : Namespace).text = .ok ⟨true, ["Geo", "Unit"]⟩ :=
  have read : QualifiedName.parse "::Geo::unit_2" = .ok ⟨⟨true, ["Geo"]⟩, "unit_2"⟩ := rfl
  ⟨⟨read, (reading_inverts_writing.1 "::Geo::unit_2").2.1 _ read⟩,
    reading_inverts_writing.2.1 _ (by decide), reading_inverts_writing.2.2 _ (by decide)⟩

/-- Exactly when a text is not two separators in a row, it is read as a namespace if and only if it
is written like one. The namespace is then written like the text, closed by a separator if it has
components, and every other text is rejected for one of its pieces. Two separators in a row are read
as the root. -/
theorem namespace_read_iff_written (text : String) :
    (((∃ ns, Namespace.parse text = .ok ns) ↔ Namespace.IsWritten text) ↔ text ≠ "::::") ∧
    (text ≠ "::::" →
      (∀ ns, Namespace.parse text = .ok ns → ns.text =
        if ns.path ≠ [] ∧ ¬separator.toList <:+ text.toList then text ++ separator else text) ∧
      (¬Namespace.IsWritten text →
        ∃ component, Namespace.parse text = .error (.invalidComponent component text))) ∧
    (text = "::::" → Namespace.parse text = .ok .root) := by
  have accepted (single : text ≠ "::::") :
      (∃ ns, Namespace.parse text = .ok ns) ↔ Namespace.IsWritten text := by
    simp only [Namespace.parse_eq_ok_iff, Namespace.exists_spelling_iff, single, or_false]
  refine ⟨⟨?_, accepted⟩, fun single => ⟨?_, ?_⟩, ?_⟩
  · rintro agree rfl
    exact Namespace.not_isWritten_doubled (agree.1 ⟨.root, rfl⟩)
  · intro ns parsed
    exact (Namespace.spelling_of_parse parsed).text_eq single
  · intro unwritten
    cases parsed : Namespace.parse text with
    | error =>
      obtain ⟨component, rfl⟩ := Namespace.eq_invalidComponent_of_parse parsed
      exact ⟨component, rfl⟩
    | ok ns => exact absurd ((accepted single).1 ⟨ns, parsed⟩) unwritten
  · rintro rfl
    rfl

theorem namespace_read_iff_written_unclosed :
    (Namespace.parse "Geo::Unit" = .ok ⟨false, ["Geo", "Unit"]⟩ ∧
      Namespace.IsWritten "Geo::Unit" ∧
      (⟨false, ["Geo", "Unit"]⟩ : Namespace).text = "Geo::Unit" ++ separator) ∧
    (¬Namespace.IsWritten ":::" ∧
      ∃ component, Namespace.parse ":::" = .error (.invalidComponent component ":::")) ∧
    Namespace.parse "::::" = .ok .root := by
  obtain ⟨accepted, meets, -⟩ := namespace_read_iff_written "Geo::Unit"
  obtain ⟨accepted', meets', -⟩ := namespace_read_iff_written ":::"
  obtain ⟨-, -, doubled⟩ := namespace_read_iff_written "::::"
  have single : "Geo::Unit" ≠ "::::" := by decide
  have single' : ":::" ≠ "::::" := by decide
  have read : Namespace.parse "Geo::Unit" = .ok ⟨false, ["Geo", "Unit"]⟩ := rfl
  have unwritten : ¬Namespace.IsWritten ":::" := by
    intro written
    obtain ⟨_, parsed⟩ := (accepted'.2 single').2 written
    have failed : Namespace.parse ":::" = .error (.invalidComponent ":" ":::") := rfl
    cases parsed.symm.trans failed
  refine ⟨⟨read, (accepted.2 single).1 ⟨_, read⟩, ?_⟩,
    ⟨unwritten, (meets' single').2 unwritten⟩, doubled rfl⟩
  exact ((meets single).1 _ read).trans (if_pos (by decide))

/-- Two separators in a row are read although they are not written like a namespace. -/
theorem doubled_separator_read :
    Namespace.parse "::::" = .ok .root ∧ ¬Namespace.IsWritten "::::" :=
  ⟨rfl, Namespace.not_isWritten_doubled⟩

end NameResolution
