import MacroAssembler.Source.Disk

/-!
# Diagnostics

Messages, warnings and errors about a program, with the place they are about.  The same diagnostic
is reported once, in however many passes it comes up.
-/

namespace MacroAssembler

/-- A line of a source file, counted from one.  Files are numbered in the order in which they are
first loaded. -/
structure Location where
  file : Nat
  line : Nat
  deriving DecidableEq, Repr

/-- How serious a diagnostic is. -/
inductive Severity where
  /-- Informational. -/
  | message
  /-- Counted, but does not stop the assembly. -/
  | warning
  /-- The assembly fails in the end. -/
  | error
  deriving DecidableEq, Repr

/-- The name of a severity. -/
def Severity.name : Severity → String
  | .message => "message"
  | .warning => "warning"
  | .error => "error"

/-- A remark about a program. -/
structure Diagnostic where
  severity : Severity
  file : Option Text
  line : Option Nat
  message : String
  deriving DecidableEq, Repr

namespace Diagnostic

/-- The text shown for a diagnostic. -/
def render (d : Diagnostic) : String :=
  let place :=
    match d.file, d.line with
    | some file, some line => s!"{String.ofList file}:{line}: "
    | some file, none => s!"{String.ofList file}: "
    | none, _ => ""
  s!"{place}{d.severity.name}: {d.message}"

/-- Whether two diagnostics say the same of the same place. -/
def same (d e : Diagnostic) : Bool :=
  d.severity == e.severity && d.line == e.line && d.message == e.message &&
    d.file.map Path.parts == e.file.map Path.parts

end Diagnostic

/-- The diagnostics of an assembly, in the order of their report. -/
structure Diagnostics where
  entries : Array Diagnostic := #[]
  deriving DecidableEq, Repr

namespace Diagnostics

/-- Reports a diagnostic: whether it is new, and the diagnostics afterwards. -/
def report (ds : Diagnostics) (d : Diagnostic) : Bool × Diagnostics :=
  if ds.entries.any d.same then (false, ds) else (true, ⟨ds.entries.push d⟩)

/-- The number of diagnostics of a severity. -/
def count (ds : Diagnostics) (severity : Severity) : Nat :=
  ds.entries.countP fun d => d.severity == severity

/-- The number of errors. -/
def errorCount (ds : Diagnostics) : Nat :=
  ds.count .error

end Diagnostics

end MacroAssembler
