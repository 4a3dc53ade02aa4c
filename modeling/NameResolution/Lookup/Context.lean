import NameResolution.Name.QualifiedName

/-!
# Contexts

The place of a reference: the classes and modules whose bodies enclose it.

## Main definitions

* `Context` — the enclosing frames.
* `Context.push`, `Context.outer?` — one body further in and one further out.
-/

namespace NameResolution

/-- The frames around a reference, innermost first. -/
structure Context where
  frames : List QualifiedName
deriving DecidableEq, Repr

namespace Context

/-- The context outside every class and module. -/
def root : Context := ⟨[]⟩

/-- The context in the body of `frame`, which is written in this context. -/
def push (context : Context) (frame : QualifiedName) : Context := ⟨frame :: context.frames⟩

/-- The context of frames listed outermost first. -/
def ofFrames (frames : List QualifiedName) : Context := frames.foldl push root

/-- Whether no frame encloses the reference. -/
def isRoot (context : Context) : Bool := context.frames.isEmpty

/-- The frame whose body holds the reference. -/
def innermost? (context : Context) : Option QualifiedName := context.frames.head?

/-- The context in which the innermost frame is written. -/
def outer? (context : Context) : Option Context :=
  match context.frames with
  | [] => none
  | _ :: outer => some ⟨outer⟩

/-- The number of frames. -/
def depth (context : Context) : Nat := context.frames.length

/-- The frames, outermost first, for a log. -/
def debugText (context : Context) : String :=
  "[" ++ ", ".intercalate (context.frames.reverse.map QualifiedName.text) ++ "]"

end Context

end NameResolution
