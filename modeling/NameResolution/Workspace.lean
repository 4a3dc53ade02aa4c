import NameResolution.Lookup.Query

/-!
# Workspaces

An environment under construction, the copies of it that were kept, and the memory of the lookups
made since it last changed.

## Main definitions

* `Workspace` — the state.
* `Workspace.replace`, `Workspace.reset` — change what lookups see, and forget their memory.
* `Workspace.save` — keeps a copy of the environment.
* `Workspace.ask` — a lookup, through the memory.
-/

namespace NameResolution

/-- An environment under construction and the memory of lookups in it. -/
structure Workspace where
  environment : Environment
  saved : List Environment
  builtins : Builtins
  memory : Memory

namespace Workspace

/-- The workspace without declarations. -/
def new (builtins : Builtins) : Workspace := ⟨∅, [], builtins, ∅⟩

/-- The hierarchy that lookups see. -/
def hierarchy (w : Workspace) : Hierarchy := ⟨w.environment, w.builtins⟩

/-- The workspace with nothing remembered. -/
def forget (w : Workspace) : Workspace := { w with memory := ∅ }

/-- Put another environment in place. -/
def replace (w : Workspace) (environment : Environment) : Workspace :=
  { w with environment }.forget

/-- Put other implicit ancestors in place. -/
def reset (w : Workspace) (builtins : Builtins) : Workspace := { w with builtins }.forget

/-- Keep a copy of the environment. -/
def save (w : Workspace) : Workspace := { w with saved := w.saved ++ [w.environment] }

/-- Answer a query and remember what was worked out for it. -/
def ask (w : Workspace) (query : Query) : Answer × Workspace :=
  let (answer, memory) := (w.hierarchy.ask query).run w.memory
  (answer, { w with memory })

end Workspace

end NameResolution
