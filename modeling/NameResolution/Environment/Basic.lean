import NameResolution.Declaration
import NameResolution.NamePool
import NameResolution.OrderedMap.Basic

/-!
# Environments

An environment collects the declarations of a program under their absolute names. Declarations
that open one class or module several times are merged into one entry; constants keep every
declaration; for the other sorts the last declaration counts.

## Main definitions

* `ModuleEntry` — a class or module, merged over its declarations.
* `Environment` — all declarations.
* `EnvironmentError` — why a declaration is refused.
* `Environment.add`, `Environment.ofDeclarations` — the ways an environment grows.
* `Environment.membersOf` — what is declared directly in a namespace.
-/

namespace NameResolution

/-! ## Module entries -/

/-- A class or module, merged over every declaration that opens it. -/
structure ModuleEntry where
  name : QualifiedName
  kind : ModuleKind
  /-- The first superclass that a declaration states. -/
  superclass? : Option QualifiedName
  /-- The mixins of all declarations, in order. -/
  mixins : List Mixin
  /-- The known locations of all declarations, in order. -/
  locations : List Location
deriving DecidableEq, Repr

namespace ModuleEntry

/-- The entry of a name before its first declaration is merged in. -/
def opened (name : QualifiedName) (kind : ModuleKind) : ModuleEntry := ⟨name, kind, none, [], []⟩

/-- Whether the entry is a class. -/
def isClass (entry : ModuleEntry) : Bool := entry.kind == .classKind

/-- The entry after one more declaration: an earlier superclass stays, mixins and locations
follow the earlier ones. -/
def merge (entry : ModuleEntry) (decl : ModuleDecl) : ModuleEntry :=
  { entry with
    superclass? := entry.superclass? <|> decl.head.superclass?
    mixins := entry.mixins ++ decl.mixins
    locations := entry.locations ++ decl.location?.toList }

/-- The names the entry inherits from and mixes in, as they were declared. -/
def ancestorNames (entry : ModuleEntry) : List QualifiedName :=
  entry.superclass?.toList ++ entry.mixins.map Mixin.moduleName

end ModuleEntry

/-! ## Environments -/

/-- Why a declaration is refused. -/
inductive EnvironmentError where
  /-- The declared name, or a name it points at, is not absolute. -/
  | relativeName (name : QualifiedName)
  /-- A class is opened as a module, or a module as a class. -/
  | kindMismatch (name : QualifiedName) (existing added : ModuleKind)
deriving DecidableEq, Repr

namespace EnvironmentError

/-- The message for a reader. -/
def message : EnvironmentError → String
  | relativeName name => s!"declaration names must be absolute, got `{name.text}`"
  | kindMismatch name existing added =>
    s!"`{name.text}` is declared as a {existing.text} and cannot be reopened as a {added.text}"

end EnvironmentError

/-- The declarations of a program. -/
structure Environment where
  modules : OrderedMap QualifiedName ModuleEntry
  aliases : OrderedMap QualifiedName AliasDecl
  /-- Every declaration of each constant, in order. -/
  constants : OrderedMap QualifiedName (List ConstantDecl)
  interfaces : OrderedMap QualifiedName InterfaceDecl
  typeAliases : OrderedMap QualifiedName TypeAliasDecl
  /-- The names of modules, aliases and constants, in the order of their first declaration. -/
  members : List QualifiedName
  /-- The last components of all declared names. -/
  pool : NamePool

namespace Environment

/-- The environment without declarations. -/
def empty : Environment := ⟨∅, ∅, ∅, ∅, ∅, [], .empty⟩

instance : EmptyCollection Environment := ⟨empty⟩

instance : Inhabited Environment := ⟨empty⟩

/-! ### Queries -/

/-- The class or module of this name. -/
def module? (env : Environment) (name : QualifiedName) : Option ModuleEntry :=
  env.modules.find? name

/-- The alias of this name. -/
def alias? (env : Environment) (name : QualifiedName) : Option AliasDecl := env.aliases.find? name

/-- Every declaration of the constant of this name, in order. -/
def constantDecls (env : Environment) (name : QualifiedName) : List ConstantDecl :=
  (env.constants.find? name).getD []

/-- The interface of this name. -/
def interface? (env : Environment) (name : QualifiedName) : Option InterfaceDecl :=
  env.interfaces.find? name

/-- The type alias of this name. -/
def typeAlias? (env : Environment) (name : QualifiedName) : Option TypeAliasDecl :=
  env.typeAliases.find? name

/-- Whether the name is a class, a module or an alias of one. -/
def isModuleName (env : Environment) (name : QualifiedName) : Bool :=
  env.modules.contains name || env.aliases.contains name

/-- Whether the name can stand in a type. -/
def isTypeName (env : Environment) (name : QualifiedName) : Bool :=
  env.isModuleName name || env.interfaces.contains name || env.typeAliases.contains name

/-- The modules, aliases and constants declared directly in a namespace, in the order of their
first declaration. -/
def membersOf (env : Environment) (ns : Namespace) : List QualifiedName :=
  env.members.filter (·.container == ns)

/-- The number of declared names, counted for each sort of declaration on its own. -/
def size (env : Environment) : Nat :=
  env.modules.size + env.aliases.size + env.constants.size + env.interfaces.size +
    env.typeAliases.size

/-- Whether nothing is declared. -/
def isEmpty (env : Environment) : Bool := env.size == 0

/-! ### Adding declarations -/

/-- Note the name of a module, alias or constant as a member of its namespace. -/
def addMember (env : Environment) (name : QualifiedName) : Environment :=
  if name ∈ env.members then env else { env with members := env.members ++ [name] }

/-- Open a class or module, or refuse when the name belongs to the other kind. -/
def addModule (env : Environment) (decl : ModuleDecl) : Except EnvironmentError Environment :=
  let entry := (env.module? decl.name).getD (.opened decl.name decl.head.kind)
  if entry.kind = decl.head.kind then
    .ok ({ env with modules := env.modules.insert decl.name (entry.merge decl) }.addMember
      decl.name)
  else
    .error (.kindMismatch decl.name entry.kind decl.head.kind)

/-- Store a constant after the earlier declarations of its name. -/
def addConstant (env : Environment) (decl : ConstantDecl) : Environment :=
  { env with constants := env.constants.insert decl.name (env.constantDecls decl.name ++ [decl]) }
    |>.addMember decl.name

/-- Store an alias in place of an earlier one of its name. -/
def addAlias (env : Environment) (decl : AliasDecl) : Environment :=
  { env with aliases := env.aliases.insert decl.name decl }.addMember decl.name

/-- Store a declaration whose names are all absolute. -/
def store (env : Environment) : Declaration → Except EnvironmentError Environment
  | .ofModule decl => env.addModule decl
  | .ofConstant decl => .ok (env.addConstant decl)
  | .ofAlias decl => .ok (env.addAlias decl)
  | .ofInterface decl => .ok { env with interfaces := env.interfaces.insert decl.name decl }
  | .ofTypeAlias decl => .ok { env with typeAliases := env.typeAliases.insert decl.name decl }

/-- Note the last component of a declared name. -/
def noteName (env : Environment) (name : QualifiedName) : Environment :=
  { env with pool := env.pool.insert name.last }

/-- Add one declaration. The first relative name in it is reported before a mismatch of kinds. -/
def add (env : Environment) (decl : Declaration) : Except EnvironmentError Environment :=
  match decl.mentioned.find? (!·.isAbsolute) with
  | some name => .error (.relativeName name)
  | none => (env.store decl).map (·.noteName decl.name)

/-- The environment of a list of declarations, or the error of the first one refused. -/
def ofDeclarations (decls : List Declaration) : Except EnvironmentError Environment :=
  decls.foldlM add empty

end Environment

end NameResolution
