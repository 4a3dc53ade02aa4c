import NameResolution.Lookup.Memory

/-!
# Scopes

A scope is one place where a bare constant name is looked for. Two things are done with a list of
scopes, closest first: searching it for a name, which stops at the first scope that has the name,
and gathering everything it shows, where closer scopes hide farther ones.

## Main definitions

* `Scope` — one place.
* `Hierarchy.search` — the resolution of a name in the first scope that has it.
* `Hierarchy.gather` — all names of the scopes.
* `Context.lexicalScopes`, `Hierarchy.inheritedScopes`, `Hierarchy.outermostScopes`,
  `Hierarchy.objectScopes` — the scopes of a bare name, stage by stage.
* `Hierarchy.memberChain?` — where a name qualified by a class or module is looked for.
-/

namespace NameResolution

/-- One place where a bare constant name is looked for. -/
inductive Scope where
  /-- The declarations at the root. -/
  | root
  /-- The declarations directly in a class or module. -/
  | inside (name : QualifiedName)
  /-- The namespace around a frame, of which only the frame's own name is seen. -/
  | around (frame : QualifiedName)
deriving DecidableEq, Repr

namespace Scope

/-- Whether the scope can show a name at all. -/
def shows : Scope → String → Bool
  | root, _ => true
  | inside _, _ => true
  | around frame, name => frame.last == name

/-- A listing with the names that the scope shows of its table, in place of what was listed under
them. -/
def merge (scope : Scope) (table : ConstantTable) (listing : Listing) : Listing :=
  (table.firsts.filter (scope.shows ·.1)).foldl (fun l entry => l.insert entry.1 entry.2) listing

end Scope

/-- The frames of a context, innermost first, and right behind the innermost one its own name. -/
def Context.lexicalScopes (context : Context) : List Scope :=
  match context.frames with
  | [] => []
  | frame :: outer => .inside frame :: .around frame :: outer.map .inside

/-- The names with those of `extra` that are missing behind them. -/
def appendMissing (names extra : List QualifiedName) : List QualifiedName :=
  extra.foldl (fun names name => if name ∈ names then names else names ++ [name]) names

namespace Hierarchy

/-! ## Searching and gathering -/

/-- The table that a scope looks into; none for an unknown class or module. -/
def openScope? (h : Hierarchy) : Scope → StateM Memory (Option ConstantTable)
  | .root => return some (← h.openRoot)
  | .inside name => h.openChildren? name
  | .around frame => h.openEnclosing? frame

/-- What one scope says of a name. A scope that cannot show the name is not opened. -/
def lookupIn (h : Hierarchy) (name : String) (scope : Scope) : StateM Memory Resolution := do
  if scope.shows name then
    match ← h.openScope? scope with
    | none => return .absent
    | some table => return table.lookup name
  else
    return .absent

/-- What the first scope that has the name says of it. Later scopes are not opened. -/
def search (h : Hierarchy) (name : String) : List Scope → StateM Memory Resolution
  | [] => return .absent
  | scope :: outer => do
    match ← h.lookupIn name scope with
    | .absent => h.search name outer
    | resolution => return resolution

/-- Search stages of scopes one after the other. The scopes of a stage are found only when the
stages before it do not have the name. -/
def searchStages (h : Hierarchy) (name : String) :
    List (StateM Memory (List Scope)) → StateM Memory Resolution
  | [] => return .absent
  | stage :: later => do
    match ← h.search name (← stage) with
    | .absent => h.searchStages name later
    | resolution => return resolution

/-- All names of the scopes, each with the constant of the first scope that has it. Farther scopes
are merged first, so their names come first in the listing. -/
def gather (h : Hierarchy) : List Scope → StateM Memory Listing
  | [] => return ∅
  | scope :: outer => do
    let listing ← h.gather outer
    match ← h.openScope? scope with
    | none => return listing
    | some table => return scope.merge table listing

/-! ## The scopes of a bare name -/

/-- The ancestors of the innermost frame, less the implicit ones. -/
def inheritedScopes (h : Hierarchy) (context : Context) : StateM Memory (List Scope) := do
  match context.innermost? with
  | none => return []
  | some frame =>
    let line := (← h.recallAncestors? frame).getD []
    return (line.filter (!h.builtins.isBuiltin ·)).map .inside

/-- The root, and the object class behind it. -/
def outermostScopes (h : Hierarchy) : List Scope := [.root, .inside h.builtins.object]

/-- The other ancestors of the object class, ending with the kernel and the basic object class. -/
def objectScopes (h : Hierarchy) : StateM Memory (List Scope) := do
  let line := (← h.recallAncestors? h.builtins.object).getD []
  let chain := appendMissing (line.filter (· != h.builtins.object))
    [h.builtins.kernel, h.builtins.basicObject]
  return chain.map .inside

/-! ## The scopes of a qualified name -/

/-- The classes and modules whose declarations are reached through `name`: the lineage of what it
stands for and, for a class, the implicit ancestors. None when it stands for no class or module. -/
def memberChain? (h : Hierarchy) (name : QualifiedName) :
    StateM Memory (Option (List QualifiedName)) := do
  match h.environment.normalize? name with
  | none => return none
  | some target =>
    let line := (← h.recallAncestors? target).getD []
    let isClass := (h.environment.module? target).any (·.isClass)
    return some (if isClass then appendMissing line h.builtins.implicitAncestors else line)

end Hierarchy

end NameResolution
