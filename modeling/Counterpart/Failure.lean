/-
Why a run fails. A cause may stand behind another one; `Failure.chain` lists them from the outermost inwards and
`Failure.message` holds every wording.
-/
import Counterpart.Path

namespace Counterpart

open Text

/-- The kinds of errors of a file system. -/
inductive FileFault
  | notFound
  | notADirectory
  | isADirectory
  | alreadyExists
  /-- The content is no text. -/
  | invalidData
  /-- A name or a path is too long. -/
  | invalidFilename
  /-- A path holds a character that none can hold. -/
  | invalidInput
deriving DecidableEq, Repr

def FileFault.message : FileFault → String
  | notFound => "No such file or directory (os error 2)"
  | alreadyExists => "File exists (os error 17)"
  | notADirectory => "Not a directory (os error 20)"
  | isADirectory => "Is a directory (os error 21)"
  | invalidFilename => "File name too long (os error 36)"
  | invalidData => "stream did not contain valid UTF-8"
  | invalidInput => "file name contained an unexpected NUL byte"

/-- The names that a user can choose. -/
inductive ChosenName
  | className
  | suffix
deriving DecidableEq, Repr

def ChosenName.describe : ChosenName → String
  | .className => "class name"
  | .suffix => "suffix"

/-- The results of phases that later phases need. -/
inductive PhaseResult
  | naming
  | plan
  | classes
deriving DecidableEq, Repr

namespace PhaseResult

def describe : PhaseResult → String
  | naming => "naming"
  | plan => "plan"
  | classes => "generated classes"

/-- The phase that gives the result. -/
def source : PhaseResult → String
  | naming => "SelectPhase"
  | plan => "PlanPhase"
  | classes => "EntityPhase"

end PhaseResult

inductive Failure
  /-- A class is reached whose file has no planned output. -/
  | unplanned (className : String) (origin : Path)
  | notGenerated (className : String)
  | missingDeclaration (name : String) (file : Path)
  | fileExists (path : Path)
  | pathConflict (path first second : Path)
  | unknownClass (name : String)
  | ambiguousClass (name : String) (candidates : List String)
  | unsupportedClass
  /-- Nothing is left of a chosen name. -/
  | unusableName (which : ChosenName)
  | lintErrors (count : Nat)
  /-- A phase runs before the one whose result it needs. -/
  | phaseOrder (missing : PhaseResult) (phase : String)
  /-- A result is asked for that no phase has given. -/
  | noResult (missing : PhaseResult)
  | wouldOverwrite (path : Path)
  | wouldOverwriteAll (paths : List Path)
  | fileSystem (fault : FileFault)
  /-- A hook ends the run. -/
  | stopped (message : String)
  /-- What was going on when the cause arose. -/
  | during (action : String) (cause : Failure)
deriving DecidableEq, Repr

namespace Failure

/-- The cause and those behind it, outermost first. -/
def chain : Failure → List Failure
  | during action cause => during action cause :: cause.chain
  | f => [f]

def message : Failure → String
  | unplanned className origin =>
    "File doesn't exist: no output file was planned for `" ++ className ++ "` (declared in " ++ origin.text ++ ")"
  | notGenerated className => "`" ++ className ++ "` has no generated counterpart"
  | missingDeclaration name file => "generated declaration `" ++ name ++ "` is missing from " ++ file.text
  | fileExists path => path.text ++ " already exists (use --force to overwrite it)"
  | pathConflict path first second =>
    path.text ++ " would be generated from both " ++ first.text ++ " and " ++ second.text
  | unknownClass name => "no class named `" ++ name ++ "` was found"
  | ambiguousClass name candidates => "`" ++ name ++ "` is ambiguous, use one of: " ++ join ", " candidates
  | unsupportedClass => "mapgen only supports data classes and enums"
  | unusableName which => "the " ++ which.describe ++ " must contain letters, digits, '_' or '$'"
  | lintErrors count => "Validation failed with " ++ toString count ++ " error(s)"
  | phaseOrder missing phase =>
    missing.describe ++ " not set - " ++ missing.source ++ " must run before " ++ phase
  | noResult missing => missing.describe ++ " not set - did " ++ missing.source ++ " run?"
  | wouldOverwrite path => "refusing to overwrite existing file " ++ path.text
  | wouldOverwriteAll paths =>
    "refusing to overwrite existing file(s): " ++ join ", " (paths.map (·.text)) ++ " (use --force to replace them)"
  | fileSystem fault => fault.message
  | stopped message => message
  | during action _ => action

end Failure

end Counterpart
