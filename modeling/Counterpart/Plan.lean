/-
Which file receives which counterpart. Every source file of a reachable class gets one output, named after the
first of its classes that is reached and placed beside the file of the selected class. No path is taken twice.
-/
import Counterpart.Project.Reachable
import Counterpart.Naming
import Counterpart.Output.Workspace

namespace Counterpart

open Output

/-- The outputs of one source file. -/
structure PlannedOutput where
  origin : FileId
  /-- Receives the counterparts. -/
  entity : OutputId
  /-- Receives the functions; the same file when they are inline. -/
  mapper : OutputId
deriving DecidableEq, Repr

/-- The outputs of the source files, in the order in which they are first reached. -/
structure Plan where
  outputs : List PlannedOutput
deriving DecidableEq, Repr

namespace Plan

/-- No outputs. -/
def empty : Plan := ⟨[]⟩

def output? (p : Plan) (origin : FileId) : Option PlannedOutput :=
  p.outputs.find? fun o => o.origin == origin

def entityFile? (p : Plan) (origin : FileId) : Option OutputId :=
  (p.output? origin).map (·.entity)

/-- The file of the functions that goes with a file of counterparts. -/
def mapperFile? (p : Plan) (entity : OutputId) : Option OutputId :=
  (p.outputs.find? fun o => o.entity == entity).map (·.mapper)

end Plan

/-- What planning depends on. -/
structure Planner where
  project : Project
  naming : Naming
  placement : MapperPlacement
  /-- Whether outputs may exist already. -/
  overwrite : Bool
  /-- Whether something is at a path. -/
  onDisk : Path → Bool

namespace Planner

structure State where
  plan : Plan
  /-- The paths of the outputs and the source files that they are for. -/
  taken : List (Path × FileId)
  workspace : Workspace

/-- The output file for a path, created unless the workspace has it. -/
def reserve (pl : Planner) (path : Path) (origin : FileId) (role : FileRole) (s : State) :
    Except Failure (State × OutputId) :=
  match s.taken.find? fun c => c.1.same path with
  | some (_, first) => .error (.pathConflict path (pl.project.file first).path (pl.project.file origin).path)
  | none =>
    if !pl.overwrite && pl.onDisk path then .error (.fileExists path)
    else
      let taken := s.taken ++ [(path, origin)]
      match s.workspace.findFile? path with
      | some id => .ok (⟨s.plan, taken, s.workspace⟩, id)
      | none =>
        let package := (pl.project.fileOf pl.naming.root).package
        .ok (⟨s.plan, taken, s.workspace.create path package role⟩, s.workspace.files.size)

/-- The path of an output: the stem with an ending, beside the file of the selected class. -/
def outputPath (pl : Planner) (c : ClassId) (ending : String) : Path :=
  (pl.project.fileOf pl.naming.root).dir.join ⟨pl.naming.className pl.project c ++ ending⟩

def record (o : PlannedOutput) (s : State) : State :=
  { s with plan := ⟨s.plan.outputs ++ [o]⟩ }

/-- Plans the outputs of the source file of a class, unless it has some. A failure leaves what was taken
before it. -/
def allocate (pl : Planner) (c : ClassId) (s : State) : State × Option Failure :=
  let origin := (pl.project.decl c).file
  if (s.plan.output? origin).isSome then (s, none)
  else match pl.reserve (pl.outputPath c ".kt") origin .entity s with
    | .error e => (s, some e)
    | .ok (s₁, entity) =>
      match pl.placement with
      | .inlined => (record ⟨origin, entity, entity⟩ s₁, none)
      | .separate =>
        match pl.reserve (pl.outputPath c "Mapper.kt") origin .mapper s₁ with
        | .error e => (s₁, some e)
        | .ok (s₂, mapper) => (record ⟨origin, entity, mapper⟩ s₂, none)

def allocateAll (pl : Planner) : List ClassId → State → State × Option Failure
  | [], s => (s, none)
  | c :: cs, s =>
    match pl.allocate c s with
    | (s, some e) => (s, some e)
    | (s, none) => pl.allocateAll cs s

/-- The plan for all reachable classes, and the workspace with its files. -/
def run (pl : Planner) (w : Workspace) : Workspace × Except Failure Plan :=
  match pl.allocateAll (pl.project.reachable pl.naming.root) ⟨.empty, [], w⟩ with
  | (s, some e) => (s.workspace, .error e)
  | (s, none) => (s.workspace, .ok s.plan)

end Planner

end Counterpart
