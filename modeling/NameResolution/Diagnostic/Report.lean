import NameResolution.Diagnostic.Basic

/-!
# Reports

Diagnostics as they are collected, in order, with what a caller wants to know of them.

## Main definitions

* `Report` — the diagnostics collected so far.
* `Report.add`, `Report.addFinding` — collects one more.
* `Report.forFile` — the diagnostics about one file.
-/

namespace NameResolution

/-- The diagnostics collected so far. -/
structure Report where
  diagnostics : List Diagnostic
deriving DecidableEq, Repr

namespace Report

/-- Nothing collected. -/
def empty : Report := ⟨[]⟩

/-- Collect one more diagnostic. -/
def add (report : Report) (d : Diagnostic) : Report := ⟨report.diagnostics ++ [d]⟩

/-- Collect the diagnostic of a finding. -/
def addFinding (report : Report) (finding : Finding) : Report := report.add finding.toDiagnostic

/-- The number of diagnostics. -/
def size (report : Report) : Nat := report.diagnostics.length

/-- The number of diagnostics of one severity. -/
def count (report : Report) (severity : Severity) : Nat :=
  report.diagnostics.countP (·.severity == severity)

/-- Whether an error was collected. -/
def hasErrors (report : Report) : Bool := report.diagnostics.any (·.severity == .error)

/-- The diagnostics about one file. -/
def forFile (report : Report) (file : FileId) : List Diagnostic :=
  report.diagnostics.filter (·.file? == some file)

/-- The diagnostic collected last. -/
def last? (report : Report) : Option Diagnostic := report.diagnostics.getLast?

end Report

end NameResolution
