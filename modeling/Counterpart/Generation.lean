/-
A generation in progress: the project, what is to be generated, and the results so far. Each phase fills in a
part; `Generation.start` has none of them.
-/
import Counterpart.Diagnostic
import Counterpart.Entity.Table
import Counterpart.Plan

namespace Counterpart

open Output

/-- What to generate. -/
structure Options where
  /-- The qualified name, the nested path or the simple name of the selected class. -/
  selection : String
  /-- The name of its counterpart before the suffix; none for that of the class. -/
  name : Option String
  suffix : String
  placement : MapperPlacement
  /-- Whether outputs may replace files. -/
  overwrite : Bool
deriving DecidableEq, Repr

/-- The options when the user gives a class alone. -/
def Options.ofClass (selection : String) : Options :=
  ⟨selection, none, Naming.defaultSuffix, .inlined, false⟩

structure Generation where
  project : Project
  options : Options
  naming : Option Naming
  plan : Option Plan
  table : Option Entity.Table
  /-- The counterpart of the selected class. -/
  root : Option Ref
  workspace : Workspace
  diagnostics : List Diagnostic

namespace Generation

/-- Nothing done yet. -/
def start (project : Project) (options : Options) : Generation :=
  ⟨project, options, none, none, none, none, .empty, []⟩

def report (g : Generation) (ds : List Diagnostic) : Generation :=
  { g with diagnostics := g.diagnostics ++ ds }

def errors (g : Generation) : List Diagnostic := g.diagnostics.filter Diagnostic.isError

def warnings (g : Generation) : List Diagnostic := g.diagnostics.filter Diagnostic.isWarning

/-! ## Results -/

/-- A result, or the failure that it is missing. -/
def result {α : Type} (value : Option α) (missing : PhaseResult) : Except Failure α :=
  match value with
  | some a => .ok a
  | none => .error (.noResult missing)

/-- A result for the phase that needs it. -/
def resultFor {α : Type} (phase : String) (value : Option α) (missing : PhaseResult) : Except Failure α :=
  match value with
  | some a => .ok a
  | none => .error (.phaseOrder missing phase)

end Generation

end Counterpart
