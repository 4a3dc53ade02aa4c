import NameResolution.Lookup.Constant
import NameResolution.Lookup.TypeName

/-!
# Queries

Everything that can be asked of a hierarchy, as data. A run of queries shares one memory.

## Main definitions

* `Query`, `Answer` — the questions and the shapes of their answers.
* `Hierarchy.ask` — the answer to one query.
* `Hierarchy.askAll` — the answers to a run of queries.
-/

namespace NameResolution

/-- A question about the names of a hierarchy. -/
inductive Query where
  /-- The table of the root. -/
  | rootTable
  /-- The table of a class or module. -/
  | childTable (name : QualifiedName)
  /-- The table that a name is listed in. -/
  | enclosingTable (name : QualifiedName)
  /-- The entry of an absolute name. -/
  | constantAt (name : QualifiedName)
  /-- The ancestors of a class or module. -/
  | ancestors (name : QualifiedName)
  /-- The meaning of a bare constant name. -/
  | resolve (name : String) (context : Context)
  /-- The meaning of a qualified constant name. -/
  | resolveChild (qualifier : QualifiedName) (name : String)
  /-- The constants seen from a context. -/
  | constants (context : Context)
  /-- The constants reached through a class or module. -/
  | children (qualifier : QualifiedName)
  /-- The meaning of a type name. -/
  | typeName (name : QualifiedName) (context : Context)
deriving DecidableEq, Repr

/-- The answer to a query. -/
inductive Answer where
  | table (table? : Option ConstantTable)
  | resolution (resolution : Resolution)
  | ancestors (line? : Option (List QualifiedName))
  | listing (listing? : Option Listing)
  | typeName (name? : Option QualifiedName)

namespace Hierarchy

/-- Answer one query. -/
def ask (h : Hierarchy) : Query → StateM Memory Answer
  | .rootTable => return .table (some (← h.openRoot))
  | .childTable name => return .table (← h.openChildren? name)
  | .enclosingTable name => return .table (← h.openEnclosing? name)
  | .constantAt name => return .resolution (← h.constantAt name)
  | .ancestors name => return .ancestors (← h.recallAncestors? name)
  | .resolve name context => return .resolution (← h.resolve name context)
  | .resolveChild qualifier name => return .resolution (← h.resolveChild qualifier name)
  | .constants context => return .listing (some (← h.constants context))
  | .children qualifier => return .listing (← h.children qualifier)
  | .typeName name context => return .typeName (← h.resolveTypeName name context)

/-- Answer a run of queries in order. -/
def askAll (h : Hierarchy) (queries : List Query) : StateM Memory (List Answer) :=
  queries.mapM h.ask

end Hierarchy

end NameResolution
