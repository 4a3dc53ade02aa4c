import NameResolution.Name.QualifiedName

/-!
# Reading names

A written name is an optional leading separator and components with separators between them. A
namespace may also end in a separator, or have no components at all.

## Main definitions

* `NameError` — why a text is not a name.
* `QualifiedName.parse` — reads a qualified name.
* `Namespace.parse` — reads a namespace.
-/

namespace NameResolution

/-- Why a text is not a name. -/
inductive NameError where
  /-- There are no components. -/
  | empty
  /-- The piece `component` of `text` is not an identifier. -/
  | invalidComponent (component text : String)
  /-- The text ends in a separator, which only a namespace may do. -/
  | trailingSeparator (text : String)
deriving DecidableEq, Repr

namespace NameError

/-- The message for a reader. -/
def message : NameError → String
  | empty => "empty name"
  | invalidComponent component text => s!"invalid component `{component}` in `{text}`"
  | trailingSeparator text => s!"type name `{text}` must not end with `::`"

end NameError

/-- The absolute flag of a written name, and the text after its leading separator. -/
def readAnchor (text : List Char) : Bool × List Char :=
  match dropLeadingSeparator? text with
  | some body => (true, body)
  | none => (false, text)

/-- The components of `body`, which is part of `text`; the leftmost ill-formed one is reported. -/
def readComponents (text : String) (body : List Char) : Except NameError (List String) :=
  match (segments body).find? (fun piece => !isIdentifier piece) with
  | some piece => .error (.invalidComponent (String.ofList piece) text)
  | none => .ok ((segments body).map String.ofList)

/-- Read a namespace. One separator may stand at either end, and the components between may be
missing. -/
def Namespace.parse (text : String) : Except NameError Namespace := do
  let (isAbsolute, body) := readAnchor text.toList
  let body := (dropTrailingSeparator? body).getD body
  if body = [] then
    return ⟨isAbsolute, []⟩
  return ⟨isAbsolute, ← readComponents text body⟩

/-- Read a qualified name. One separator may stand in front, and there is at least one
component. -/
def QualifiedName.parse (text : String) : Except NameError QualifiedName := do
  let (isAbsolute, body) := readAnchor text.toList
  if body = [] then
    throw .empty
  if (dropTrailingSeparator? body).isSome then
    throw (.trailingSeparator text)
  match (⟨isAbsolute, ← readComponents text body⟩ : Namespace).toName? with
  | some name => return name
  | none => throw .empty

end NameResolution
