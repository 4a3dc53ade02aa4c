import NameResolution.Constant.Table
import NameResolution.Diagnostic.Basic
import NameResolution.Environment.Alias

/-!
# Checking an environment

The references inside an environment that no lookup can resolve: unknown superclasses and mixins,
aliases that lead nowhere, and names for which declarations tie.

## Main definitions

* `Environment.unknownAncestors`, `danglingAliases`, `ambiguousConstants` — the findings of each
  sort.
* `Environment.check` — all findings.
-/

namespace NameResolution

namespace Environment

/-- The superclasses and mixins that stand for no class or module, entry by entry. The location is
the first one of the entry. -/
def unknownAncestors (env : Environment) : List Finding :=
  env.modules.entries.flatMap fun (name, entry) =>
    (entry.ancestorNames.filter fun ancestor => (env.normalize? ancestor).isNone).map
      fun ancestor => .unknownAncestor name ancestor entry.locations.head?

/-- The aliases that stand for no class or module. -/
def danglingAliases (env : Environment) : List Finding :=
  (env.aliases.entries.filter fun (name, _) => (env.normalize? name).isNone).map
    fun (_, decl) => .danglingAlias decl

/-- The namespaces that a lookup can open: the root, then those of the classes and modules. -/
def openNamespaces (env : Environment) : List Namespace :=
  .root :: env.modules.keys.map QualifiedName.toNamespace

/-- The names for which declarations tie, namespace by namespace. The location is that of the
first candidate. -/
def ambiguousConstants (env : Environment) : List Finding :=
  env.openNamespaces.flatMap fun ns =>
    (env.table ns).ambiguities.map fun conflict =>
      .ambiguousConstant conflict (conflict.candidates.head?.bind Constant.location?)

/-- Everything in the environment that no lookup can resolve. -/
def check (env : Environment) : List Finding :=
  env.unknownAncestors ++ env.danglingAliases ++ env.ambiguousConstants

end Environment

end NameResolution
