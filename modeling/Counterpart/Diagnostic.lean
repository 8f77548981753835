/-
Messages that a run leaves for its user: errors, warnings and notes, each from a phase and perhaps at a place in
the sources.
-/
namespace Counterpart

inductive Severity
  | error
  | warning
  | info
deriving DecidableEq, Repr

def Severity.describe : Severity → String
  | .error => "error"
  | .warning => "warning"
  | .info => "info"

structure Diagnostic where
  severity : Severity
  phase : String
  message : String
  /-- The qualified name of what the message is about. -/
  location : Option String
deriving DecidableEq, Repr

namespace Diagnostic

def warning (phase message location : String) : Diagnostic := ⟨.warning, phase, message, some location⟩

def info (phase message location : String) : Diagnostic := ⟨.info, phase, message, some location⟩

def isError (d : Diagnostic) : Bool := d.severity == .error

def isWarning (d : Diagnostic) : Bool := d.severity == .warning

/-- The message on one line. -/
def text (d : Diagnostic) : String :=
  d.severity.describe ++ ": " ++ d.message ++ match d.location with
    | some location => " (at " ++ location ++ ")"
    | none => ""

end Diagnostic

end Counterpart
