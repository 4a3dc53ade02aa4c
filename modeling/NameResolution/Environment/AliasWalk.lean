import NameResolution.Environment.Alias

/-!
# Walking along aliases

The chain of aliases from a name can be walked turn by turn. A walk stops at the first class or
module that it comes to. It keeps the aliases that it has come through, and gives up at a name that
is no alias and at an alias that it comes back to.

## Main definitions

* `AliasWalk` — where a walk stands, and what it has come through.
* `AliasWalk.turn` — one turn, which ends the walk or takes it past one more alias.
* `AliasWalk.run` — the outcome of a walk, if it ends within some number of turns.
-/

namespace NameResolution

/-- A walk along aliases that has not ended. -/
structure AliasWalk where
  current : QualifiedName
  /-- The aliases that the walk has come through, the last one first. -/
  visited : List QualifiedName
deriving DecidableEq, Repr

/-- What one turn of a walk comes to. -/
inductive AliasTurn where
  /-- The walk is over: at a class or module, or with nothing found. -/
  | ended (outcome? : Option QualifiedName)
  /-- The walk goes on from the target of an alias. -/
  | onward (walk : AliasWalk)
deriving DecidableEq, Repr

namespace AliasWalk

/-- The walk from a name, before its first turn. -/
def start (name : QualifiedName) : AliasWalk := ⟨name, []⟩

/-- One turn: a class or module ends the walk, and so does a name that is no alias or one that the
walk has come through before. -/
def turn (env : Environment) (walk : AliasWalk) : AliasTurn :=
  if env.modules.contains walk.current then .ended (some walk.current)
  else
    match env.alias? walk.current with
    | none => .ended none
    | some decl =>
      if walk.current ∈ walk.visited then .ended none
      else .onward ⟨decl.target, walk.current :: walk.visited⟩

/-- The outcome of a walk that ends within `turns` turns; none when it takes more of them. -/
def run (env : Environment) : (turns : Nat) → AliasWalk → Option (Option QualifiedName)
  | 0, _ => none
  | turns + 1, walk =>
    match walk.turn env with
    | .ended outcome? => some outcome?
    | .onward next => run env turns next

end AliasWalk

end NameResolution
