/-
The phases of a run. A phase that fails leaves what it had done until then; one that needs the result of an earlier
phase fails when that is missing.
-/
import Counterpart.Entity.Walk
import Counterpart.Generation.Lint
import Counterpart.Generation.Select
import Counterpart.Mapper.Queue

namespace Counterpart

namespace Generation

/-- Allocates the output files. `onDisk` tells where something is. -/
def planFiles (onDisk : Path → Bool) (g : Generation) : Generation × Option Failure :=
  match resultFor "PlanPhase" g.naming .naming with
  | .error e => (g, some e)
  | .ok naming =>
    let planner : Planner := ⟨g.project, naming, g.options.placement, g.options.overwrite, onDisk⟩
    match planner.run g.workspace with
    | (workspace, .error e) => ({ g with workspace }, some e)
    | (workspace, .ok plan) => ({ g with workspace, plan := some plan }, none)

/-- Generates the counterparts. -/
def generateEntities (g : Generation) : Generation × Option Failure :=
  let needed := do
    let naming ← resultFor "EntityPhase" g.naming .naming
    let plan ← resultFor "EntityPhase" g.plan .plan
    return (naming, plan)
  match needed with
  | .error e => (g, some e)
  | .ok (naming, plan) =>
    match (Entity.Generator.mk g.project plan naming).run g.workspace with
    | (workspace, .error e) => ({ g with workspace }, some e)
    | (workspace, .ok r) =>
      (({ g with workspace, root := some r.root, table := some r.table } : Generation).report r.diagnostics, none)

/-- Generates the conversion functions. -/
def generateMappers (g : Generation) : Generation × Option Failure :=
  let needed := do
    let naming ← resultFor "MapperPhase" g.naming .naming
    let plan ← resultFor "MapperPhase" g.plan .plan
    let table ← resultFor "MapperPhase" g.table .classes
    return (naming, plan, table)
  match needed with
  | .error e => (g, some e)
  | .ok (naming, plan, table) =>
    match (Mapper.Setting.mk g.project naming table).run plan g.workspace with
    | (workspace, .error e) => ({ g with workspace }, some e)
    | (workspace, .ok diagnostics) => (({ g with workspace } : Generation).report diagnostics, none)

end Generation

/-- A step of a run. -/
structure Phase where
  name : String
  description : String
  /-- What the phase does, given where something is on disk. -/
  run : (onDisk : Path → Bool) → Generation → Generation × Option Failure

namespace Phase

def select : Phase := ⟨"select", "Resolve the selected class and the generated names", fun _ => Generation.select⟩

def validate (lints : List Lint) : Phase :=
  ⟨"validate", "Lint the classes reachable from the selection", fun _ => Generation.validate lints⟩

def plan : Phase := ⟨"plan", "Allocate one output file per origin file", Generation.planFiles⟩

def entity : Phase := ⟨"entity", "Generate data classes and enums", fun _ => Generation.generateEntities⟩

def mapper : Phase :=
  ⟨"mapper", "Generate mapTo<Suffix>() conversion functions", fun _ => Generation.generateMappers⟩

/-- The phases of every run, in order. -/
def builtin : List Phase := [select, validate Lint.all, plan, entity, mapper]

end Phase

end Counterpart
