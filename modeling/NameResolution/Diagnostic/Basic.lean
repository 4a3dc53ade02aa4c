import NameResolution.Constant.Basic
import NameResolution.Declaration

/-!
# Diagnostics

What a user is told about names that do not resolve. A finding is the cause; a diagnostic is the
report made of it, with a severity, a code, a message and further locations.

## Main definitions

* `Severity`, `RelatedInfo`, `Diagnostic` — a report.
* `Finding` — a cause.
* `Finding.code`, `Finding.message`, `Finding.toDiagnostic` — the report of a cause.
-/

namespace NameResolution

/-- How serious a diagnostic is. -/
inductive Severity where
  | error
  | warning
deriving DecidableEq, Repr

namespace Severity

/-- The name of the severity. -/
def text : Severity → String
  | error => "error"
  | warning => "warning"

end Severity

/-- A further location that belongs to a diagnostic. -/
structure RelatedInfo where
  location? : Option Location
  message : String
deriving DecidableEq, Repr

/-- A report to the user. -/
structure Diagnostic where
  severity : Severity
  code? : Option String
  message : String
  location? : Option Location
  related : List RelatedInfo
deriving DecidableEq, Repr

namespace Diagnostic

/-- The file that the diagnostic is about. -/
def file? (d : Diagnostic) : Option FileId := d.location?.map Location.file

end Diagnostic

/-- Why a name does not resolve. -/
inductive Finding where
  /-- A constant name that is not declared. -/
  | unresolvedConstant (name : String) (location? : Option Location)
  /-- A constant name for which several declarations tie. -/
  | ambiguousConstant (conflict : Ambiguity) (location? : Option Location)
  /-- A relative type name that is not declared. -/
  | unresolvedTypeName (name : QualifiedName) (location? : Option Location)
  /-- A superclass or mixin that stands for no class or module. -/
  | unknownAncestor (owner ancestor : QualifiedName) (location? : Option Location)
  /-- An alias that stands for no class or module. -/
  | danglingAlias (decl : AliasDecl)
deriving DecidableEq, Repr

namespace Finding

/-- The codes of the findings, in the order of the findings. -/
def codes : List String := ["E0001", "E0002", "E0003", "E0004", "E0005"]

/-- The code of the finding. -/
def code : Finding → String
  | unresolvedConstant .. => "E0001"
  | ambiguousConstant .. => "E0002"
  | unresolvedTypeName .. => "E0003"
  | unknownAncestor .. => "E0004"
  | danglingAlias _ => "E0005"

/-- The message of the finding. -/
def message : Finding → String
  | unresolvedConstant name _ => s!"uninitialized constant `{name}`"
  | ambiguousConstant conflict _ => conflict.message
  | unresolvedTypeName name _ => s!"cannot resolve type name `{name.text}`"
  | unknownAncestor owner ancestor _ =>
    s!"`{owner.text}` inherits or mixes in unknown module `{ancestor.text}`"
  | danglingAlias decl =>
    s!"{decl.kind.text} alias `{decl.name.text}` does not lead to a declaration "
      ++ s!"(target `{decl.target.text}`)"

/-- Where the finding was made. -/
def location? : Finding → Option Location
  | unresolvedConstant _ location? => location?
  | ambiguousConstant _ location? => location?
  | unresolvedTypeName _ location? => location?
  | unknownAncestor _ _ location? => location?
  | danglingAlias decl => decl.location?

/-- The further locations of the finding: those of the candidates of a tie. -/
def related : Finding → List RelatedInfo
  | ambiguousConstant conflict _ =>
    conflict.candidates.map fun c => ⟨c.location?, s!"candidate: {c.signature}"⟩
  | _ => []

/-- The report of the finding. Every finding is an error. -/
def toDiagnostic (finding : Finding) : Diagnostic :=
  ⟨.error, some finding.code, finding.message, finding.location?, finding.related⟩

end Finding

end NameResolution
