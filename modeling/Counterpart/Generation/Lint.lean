/-
Checks of the classes that will be generated. They find what a user should know beforehand: names that are
declared already, properties that get no counterpart, and default values that are lost.
-/
import Counterpart.Project.Reachable
import Counterpart.Generation

namespace Counterpart

open Kotlin Text

/-- What a check looks at. -/
structure LintTarget where
  project : Project
  naming : Naming
  /-- The classes to generate, the selected one first. -/
  classes : List ClassId

namespace LintTarget

/-- The name of the phase in the messages of the checks. -/
def phaseName : String := "validate"

variable (t : LintTarget)

/-- A nested class keeps its place inside another one, so only the others can meet a declaration. -/
def becomesTopLevel (c : ClassId) : Bool :=
  c == t.naming.root || (t.project.decl c).parent?.isNone

/-- The warning that the counterpart of a class is declared already. -/
def existingName? (c : ClassId) : Option Diagnostic :=
  if t.becomesTopLevel c then
    let name := Name.inPackage (t.project.packageOf t.naming.root) (t.naming.className t.project c)
    (t.project.find? name).map fun existing =>
      .warning phaseName ("'" ++ name ++ "' is already declared in " ++ (t.project.fileOf existing).path.text)
        (t.project.qualifiedName c)
  else none

/-- The notes on the private properties of a class. -/
def privateFields (c : ClassId) : List Diagnostic :=
  let owner := t.project.qualifiedName c
  ((t.project.decl c).fields.filter Field.isPrivate).map fun f =>
    .info phaseName ("private property '" ++ f.name ++ "' of '" ++ owner ++ "' is not mapped") (owner ++ "." ++ f.name)

/-- The note on the default values of a class. -/
def defaultValues? (c : ClassId) : Option Diagnostic :=
  let owner := t.project.qualifiedName c
  match ((t.project.decl c).visibleFields.filter (·.hasDefault)).map (·.name) with
  | [] => none
  | names => some (.info phaseName ("default values of '" ++ owner ++ "' are not copied to '"
      ++ t.naming.className t.project c ++ "': " ++ join ", " names) owner)

end LintTarget

/-- The checks. -/
inductive Lint
  | existingName
  | privateFields
  | defaultValues
deriving DecidableEq, Repr

namespace Lint

/-- The checks of every run, in order. -/
def all : List Lint := [existingName, privateFields, defaultValues]

def name : Lint → String
  | existingName => "existing-name"
  | privateFields => "private-fields"
  | defaultValues => "default-values"

def describe : Lint → String
  | existingName => "Warn about generated class names that are already declared"
  | privateFields => "Report private constructor properties that are not mapped"
  | defaultValues => "Report default values that are not copied to generated classes"

/-- What a check finds, class by class. -/
def check (t : LintTarget) : Lint → List Diagnostic
  | existingName => t.classes.filterMap t.existingName?
  | privateFields => t.classes.flatMap t.privateFields
  | defaultValues => t.classes.filterMap t.defaultValues?

end Lint

/-- Checks what will be generated. Any error among the messages of the run so far ends it. -/
def Generation.validate (lints : List Lint) (g : Generation) : Generation × Option Failure :=
  match Generation.resultFor "ValidatePhase" g.naming .naming with
  | .error e => (g, some e)
  | .ok naming =>
    let target : LintTarget := ⟨g.project, naming, g.project.reachable naming.root⟩
    let g := g.report (lints.flatMap (Lint.check target))
    (g, if g.errors.isEmpty then none else some (.lintErrors g.errors.length))

end Counterpart
