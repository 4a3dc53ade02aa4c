import NameResolution.Environment.Basic

/-!
# Adding in place

An environment that is held in one place is changed step by step when a declaration is added to it.
A refusal on the way leaves behind whatever the earlier steps have done.

## Main definitions

* `EnvironmentM` — changes of an environment that may be refused.
* `Environment.openEntry` — puts the entry of a class or module in place and compares the kinds.
* `Environment.addInPlace` — adds one declaration.
* `Environment.attempt` — the outcome of adding one, and the environment afterwards.
-/

namespace NameResolution

/-- A change of an environment that may be refused. What it has done before a refusal stays. -/
abbrev EnvironmentM := ExceptT EnvironmentError (StateM Environment)

namespace Environment

/-- Refuse a name that is not absolute. -/
def requireAbsolute (name : QualifiedName) : EnvironmentM Unit :=
  if name.isAbsolute then pure () else throw (.relativeName name)

/-- The entry of a class or module to be opened as `kind`. A missing entry is put in place, and only
then are the kinds compared. -/
def openEntry (name : QualifiedName) (kind : ModuleKind) : EnvironmentM ModuleEntry := do
  modify fun env => { env with modules := env.modules.insertIfNew name (.opened name kind) }
  let entry := ((← get).module? name).getD (.opened name kind)
  if entry.kind = kind then return entry else throw (.kindMismatch name entry.kind kind)

/-- Store a declaration whose names are all absolute, its own map first and the members after it. -/
def storeInPlace : Declaration → EnvironmentM Unit
  | .ofModule decl => do
    let entry ← openEntry decl.name decl.head.kind
    modify fun env => { env with modules := env.modules.insert decl.name (entry.merge decl) }
    modify (·.addMember decl.name)
  | .ofConstant decl => do
    modify fun env => { env with constants := env.constants.insertIfNew decl.name [] }
    modify fun env => { env with
      constants := env.constants.insert decl.name (env.constantDecls decl.name ++ [decl]) }
    modify (·.addMember decl.name)
  | .ofAlias decl => do
    modify fun env => { env with aliases := env.aliases.insert decl.name decl }
    modify (·.addMember decl.name)
  | .ofInterface decl =>
    modify fun env => { env with interfaces := env.interfaces.insert decl.name decl }
  | .ofTypeAlias decl =>
    modify fun env => { env with typeAliases := env.typeAliases.insert decl.name decl }

/-- Add one declaration: the names in it are checked, it is stored, and its name is noted. -/
def addInPlace (decl : Declaration) : EnvironmentM Unit := do
  decl.mentioned.forM requireAbsolute
  storeInPlace decl
  modify (·.noteName decl.name)

/-- The outcome of adding a declaration in place, and the environment afterwards. -/
def attempt (env : Environment) (decl : Declaration) :
    Except EnvironmentError Unit × Environment := (addInPlace decl).run.run env

end Environment

end NameResolution
