/-!
# Name components

The text of one step of a qualified name, and how a text falls into such steps.

## Main definitions

* `isIdentifier` — an ASCII letter or underscore, then ASCII letters, digits and underscores.
* `segments` — the pieces of a text between its separators `::`, found from the left.
* `dropLeadingSeparator?`, `dropTrailingSeparator?` — a text less the separator at one end.
* `separator` — the separator as a text.
-/

namespace NameResolution

/-- What stands between two components of a written name. -/
def separator : String := "::"

/-- Whether a character may start a component. -/
def isIdentifierStart (c : Char) : Bool := c.isAlpha || c == '_'

/-- Whether a character may continue a component. -/
def isIdentifierRest (c : Char) : Bool := c.isAlphanum || c == '_'

/-- Whether a text is a well-formed component. Letters and digits are those of ASCII alone. -/
def isIdentifier : List Char → Bool
  | [] => false
  | c :: cs => isIdentifierStart c && cs.all isIdentifierRest

/-- The pieces of a text between separators. Separators are found from the left and do not
overlap, so a third colon in a row belongs to the piece after the separator. -/
def segments : List Char → List (List Char)
  | [] => [[]]
  | ':' :: ':' :: rest => [] :: segments rest
  | c :: rest =>
    match segments rest with
    | [] => [[c]]
    | piece :: pieces => (c :: piece) :: pieces

/-- What follows a separator at the front. -/
def dropLeadingSeparator? : List Char → Option (List Char)
  | ':' :: ':' :: rest => some rest
  | _ => none

/-- What comes before a separator at the end. -/
def dropTrailingSeparator? (text : List Char) : Option (List Char) :=
  if [':', ':'].isSuffixOf text then some text.dropLast.dropLast else none

theorem segments_ne_nil (text : List Char) : segments text ≠ [] := by
  fun_cases segments text <;> simp

end NameResolution
