/-
The program: what a command can see of the machine's disk is taken in, the command is executed on that, and what it
changed is put back.
-/
import Counterpart.Execution

namespace Counterpart.Machine

open Text

/-! ## Places -/

/-- The path from the root to a place. -/
def pathTo (l : Location) := System.mkFilePath ["/" ++ join "/" l.reverse]

/-- The place that a path leads to, taken word for word. -/
def placeOf (workDir : Location) (p : Path) : Location :=
  p.pieces.foldl
    (fun l piece => if piece = "" || piece = "." then l else if piece = ".." then l.tail else piece :: l)
    (if p.isAbsolute then [] else workDir)

/-! ## Taking in -/

/-- The disk with a directory at a place and at those around it. -/
def withDirectories (d : Disk) : Location → Disk
  | [] => d
  | name :: outer => (withDirectories d outer).set (name :: outer) .directory

/-- Takes in what is in a directory, with the content of source files alone; what was taken in before stays. With
`deep`, what is in the directories below it comes too, unless they are skipped. -/
partial def takeDirectory (deep : Bool) (d : Disk) (l : Location) : IO Disk := do
  let mut d := withDirectories d l
  for e in ← (pathTo l).readDir do
    let inner := e.fileName :: l
    if ← e.path.isDir then
      if deep && !isSkippedDirectory e.fileName then
        d ← takeDirectory deep d inner
      else
        d := d.set inner .directory
    else if isSourceFile ⟨e.fileName⟩ then
      d := d.set inner (.file (← IO.FS.readBinFile e.path))
    else if (d.get? inner).isNone then
      d := d.set inner (.file .empty)
  return d

/-- Takes in the nearest directory around a place that is there. -/
def takeNearest (d : Disk) : Location → IO Disk
  | [] => takeDirectory false d []
  | name :: outer => do
    if ← (pathTo (name :: outer)).isDir then takeDirectory false d (name :: outer) else takeNearest d outer

/-- Takes in what a path leads to. -/
def takePlace (d : Disk) (p : Path) : IO Disk := do
  let l := placeOf d.workDir p
  if ← (pathTo l).isDir then takeDirectory true d l
  else
    let d ← takeNearest d l
    if ← (pathTo l).pathExists then
      return d.set l (.file (← IO.FS.readBinFile (pathTo l)))
    else return d

/-- Takes in what a command can see. -/
def takeFor (workDir : Location) (c : Command) : IO Disk := do
  let d ← takeDirectory false ⟨workDir, []⟩ workDir
  match c.sources? with
  | none => return d
  | some choice =>
    let d ← takePlace d (choice.config.getD ⟨Config.fileName⟩)
    match Execution.loadConfig choice d with
    | .error _ => return d
    | .ok config =>
      let d ← (Execution.rootsOf choice config).foldlM takePlace d
      match c with
      | .generate _ _ _ _ (some dir) => takeNearest d (placeOf workDir dir)
      | _ => return d

/-! ## Putting back -/

/-- Writes what is different. -/
def putBack (before after : Disk) : IO Unit := do
  for (l, e) in after.entries do
    match before.get? l, e with
    | some .directory, .directory => pure ()
    | _, .directory => IO.FS.createDirAll (pathTo l)
    | some (.file old), .file content =>
      if old.data ≠ content.data then IO.FS.writeBinFile (pathTo l) content
    | _, .file content => IO.FS.writeBinFile (pathTo l) content

end Counterpart.Machine

open Counterpart in
def main (args : List String) : IO UInt32 := do
  match CommandLine.read args with
  | .error e =>
    if e.isAnswer then
      IO.println e.message
      return 0
    else
      IO.eprintln e.message
      return 2
  | .ok command =>
    let workDir := Machine.placeOf [] ⟨(← IO.currentDir).toString⟩
    let before ← Machine.takeFor workDir command
    let (after, result) := command.execute before
    Machine.putBack before after
    match result with
    | .ok report =>
      IO.print (Report.textOf report.output)
      IO.eprint (Report.textOf report.warnings)
      return 0
    | .error e =>
      IO.eprint (Report.textOf (e.lines.map (Report.pair "error")))
      return 1
