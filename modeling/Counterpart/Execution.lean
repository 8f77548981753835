/-
Executing commands on a disk. Configuration and sources are loaded first; a run that fails leaves the disk as far
as it had changed it, which is by snapshots alone.
-/
import Counterpart.CommandLine
import Counterpart.Generation.Snapshot
import Counterpart.Report
import Counterpart.Sources

namespace Counterpart

/-- Why a command line does nothing, or a command fails. -/
inductive ExecutionError
  | usage (e : UsageError)
  | source (e : SourceError)
  | failed (f : Failure)
deriving DecidableEq, Repr

/-- What is said about the error, the hint on a line of its own. -/
def ExecutionError.lines : ExecutionError → List String
  | usage e => [e.message]
  | source e => e.message :: e.help.toList
  | failed f => f.chain.map Failure.message

/-! ## Snapshots -/

/-- Writes what there is after a phase into a directory. -/
def Snapshot.write (dir : Path) (phase : String) (g : Generation) (d : Disk) : Disk × Option Failure :=
  match d.createDirectories dir with
  | (d, some e) => (d, some (.fileSystem e))
  | (d, none) =>
    match d.write (dir.join ⟨phase ++ ".json"⟩) (Snapshot.ofGeneration phase g).text.toUTF8 with
    | .ok d => (d, none)
    | .error e => (d, some (.fileSystem e))

/-- The hooks of a run over a disk, which write snapshots when there is a directory for them. -/
def Snapshot.hooks (dir : Option Path) : Hooks Disk where
  onDisk := Disk.exists?
  before := fun _ _ d => (d, none)
  after := fun phase g d =>
    match dir with
    | some dir => Snapshot.write dir phase g d
    | none => (d, none)

namespace Execution

/-! ## Loading -/

/-- The places of the sources: those of the command line, else those of the configuration, else here. -/
def rootsOf (choice : SourceChoice) (c : Config) : List Path :=
  if !choice.roots.isEmpty then choice.roots
  else if !c.sources.isEmpty then c.sources
  else [⟨"."⟩]

def loadConfig (choice : SourceChoice) (d : Disk) : Except SourceError Config :=
  match choice.config with
  | some path => d.loadConfig path
  | none => d.discoverConfig

/-- The configuration and the project. -/
def load (choice : SourceChoice) (d : Disk) : Except SourceError (Config × Project) := do
  let c ← loadConfig choice d
  return (c, ← d.loadProject (rootsOf choice c))

/-- The options of a run. The command line goes before the configuration. -/
def optionsOf (s : Selection) (c : Config) : Options where
  selection := s.className
  name := s.name
  suffix := (s.suffix.or c.suffix).getD Naming.defaultSuffix
  placement := (s.placement.or c.placement).getD .inlined
  overwrite := c.overwrite

/-! ## Commands -/

/-- The failure seen as that of an action. -/
def during (action : String) (e : Failure) : ExecutionError := .failed (.during action e)

def generate (o : Options) (dryRun : Bool) (visualize : Option Path) (p : Project) (d : Disk) :
    Disk × Except ExecutionError Report :=
  match (Snapshot.hooks visualize).run [] p o d with
  | (d, .error e) => (d, .error (during "Generation failed" e))
  | (d, .ok g) =>
    let files := Code.renderAll g.workspace
    if dryRun then (d, .ok (g.previewReport files))
    else match (Batch.ofRendered o.overwrite files).commit ⟨"."⟩ d with
      | (d, .error e) => (d, .error (during "Failed to write generated files" e))
      | (d, .ok w) => (d, .ok (g.writtenReport visualize w))

def check (o : Options) (p : Project) (d : Disk) : Except ExecutionError Report :=
  match Counterpart.generate d.exists? p o with
  | .error e => .error (during "Check failed" e)
  | .ok g => .ok (g.checkReport d)

def explain (o : Options) (p : Project) (d : Disk) : Except ExecutionError Report :=
  match Counterpart.generate d.exists? p o with
  | .error e => .error (during "Pipeline failed" e)
  | .ok g => .ok ⟨Report.phases ++ g.explanation, []⟩

/-- Loads what a command needs, and goes on with it. -/
def withSources {α : Type} (choice : SourceChoice) (d : Disk) (k : Config → Project → α)
    (onError : ExecutionError → α) : α :=
  match load choice d with
  | .error e => onError (.source e)
  | .ok (c, p) => k c p

end Execution

open Execution in
/-- Executes a command on a disk. -/
def Command.execute (d : Disk) : Command → Disk × Except ExecutionError Report
  | .generate s choice force dryRun visualize =>
    withSources choice d
      (fun c p =>
        let o := optionsOf s c
        Execution.generate { o with overwrite := o.overwrite || force } dryRun visualize p d)
      fun e => (d, .error e)
  | .check s choice =>
    (d, withSources choice d (fun c p => Execution.check (optionsOf s c) p d) .error)
  | .list choice =>
    (d, withSources choice d (fun _ p => .ok ⟨Report.classes p, []⟩) .error)
  | .explain none _ => (d, .ok ⟨Report.phases, []⟩)
  | .explain (some className) choice =>
    (d, withSources choice d
      (fun c p => Execution.explain { optionsOf ⟨className, none, none, none⟩ c with overwrite := false } p d) .error)

/-- Executes the command that the arguments ask for. -/
def execute (args : List String) (d : Disk) : Disk × Except ExecutionError Report :=
  match CommandLine.read args with
  | .error e => (d, .error (.usage e))
  | .ok command => command.execute d

end Counterpart
