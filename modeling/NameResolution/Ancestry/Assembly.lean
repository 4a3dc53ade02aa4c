import NameResolution.Ancestry.Hierarchy

/-!
# Assembling a line of ancestors

The ancestors of a class or module are listed in lookup order: what is prepended, the class or
module itself, what is included, and the superclass's own line. Every part arrives as a line of
its own and is merged into its place.

## Main definitions

* `Slots` — the parts around the class or module itself.
* `Slots.place` — merges one more line into its part.
* `assemble` — the whole line.
-/

namespace NameResolution

/-- The parts of a line of ancestors around its owner. -/
structure Slots where
  /-- What is prepended, closest to the front first. -/
  before : List QualifiedName
  /-- What is included. -/
  after : List QualifiedName
  /-- The line of the superclass. -/
  inherited : List QualifiedName
deriving DecidableEq, Repr

namespace Slots

/-- Nothing placed yet. -/
def empty : Slots := ⟨[], [], []⟩

/-- Whether an ancestor already stands in some part. -/
def contains (slots : Slots) (name : QualifiedName) : Bool :=
  slots.before.contains name || slots.after.contains name || slots.inherited.contains name

/-- Put a prepended line at the very front, moving what it repeats. A line that brings nothing new
changes nothing. -/
def prepend (slots : Slots) (line : List QualifiedName) : Slots :=
  if line.all slots.before.contains then slots
  else { slots with before := line ++ slots.before.filter (!line.contains ·) }

/-- Put one included ancestor right behind the owner, unless it stands somewhere already. -/
def insertIncluded (slots : Slots) (name : QualifiedName) : Slots :=
  if slots.contains name then slots else { slots with after := name :: slots.after }

/-- Put the new ancestors of an included line right behind the owner, in their order. -/
def insertLine (slots : Slots) (line : List QualifiedName) : Slots :=
  line.foldr (fun name slots => slots.insertIncluded name) slots

/-- Merge a line into the part that its role asks for. -/
def place (slots : Slots) : Role × List QualifiedName → Slots
  | (.superclass, line) => { slots with inherited := line }
  | (.mixin .prepended, line) => slots.prepend line
  | (.mixin .included, line) => slots.insertLine line

/-- The whole line, with its owner in place. -/
def around (slots : Slots) (owner : QualifiedName) : List QualifiedName :=
  slots.before ++ owner :: slots.after ++ slots.inherited

end Slots

/-- The line of `owner`, from the lines of its links in the order of the links. -/
def assemble (owner : QualifiedName) (parts : List (Role × List QualifiedName)) :
    List QualifiedName :=
  (parts.foldl Slots.place .empty).around owner

end NameResolution
