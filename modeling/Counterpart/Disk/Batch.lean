/-
Writing many files at once: all of them or none. The files that will be replaced are read beforehand; when a write
fails, everything that was written is undone.
-/
import Counterpart.Code.File
import Counterpart.Disk.Undo

namespace Counterpart

open Output Text

/-! ## One file -/

/-- What a write did. -/
inductive Written
  | created
  | replaced
deriving DecidableEq, Repr

/-- A file to write. -/
structure TargetFile where
  path : Path
  content : String
  /-- Whether it may replace what is there. -/
  overwrite : Bool
deriving DecidableEq, Repr

namespace TargetFile

/-- Whether something is in the way. -/
def conflicts (f : TargetFile) (d : Disk) : Bool := !f.overwrite && d.exists? f.path

/-- Writes the file with the directories that it needs. -/
def put (f : TargetFile) (d : Disk) : Disk × Option FileFault :=
  match (f.path.parent?.map d.createDirectories).getD (d, none) with
  | (d, some e) => (d, some e)
  | (d, none) =>
    match d.write f.path f.content.toUTF8 with
    | .ok d => (d, none)
    | .error e => (d, some e)

/-- Writes the file unless something is in the way. -/
def write (f : TargetFile) (d : Disk) : Disk × Except Failure Written :=
  if f.conflicts d then (d, .error (.wouldOverwrite f.path))
  else
    let existed := d.exists? f.path
    match f.put d with
    | (d, some e) => (d, .error (.fileSystem e))
    | (d, none) => (d, .ok (if existed then .replaced else .created))

end TargetFile

/-! ## Many files -/

/-- A file of a batch. Its path is relative to the directory where the batch is written. -/
structure BatchFile where
  path : Path
  content : String
  role : FileRole
  overwrite : Bool
deriving DecidableEq, Repr

/-- The file as written into the directory `base`. -/
def BatchFile.target (f : BatchFile) (base : Path) : TargetFile :=
  ⟨base.join f.path, f.content, f.overwrite⟩

/-- The files in the order in which they are written. -/
structure Batch where
  files : List BatchFile
deriving DecidableEq, Repr

/-- What became of the files of a batch. -/
structure WriteReport where
  created : List Path
  replaced : List Path
deriving DecidableEq, Repr

namespace Batch

def empty : Batch := ⟨[]⟩

def add (b : Batch) (f : BatchFile) : Batch := ⟨b.files ++ [f]⟩

/-- The rendered files of a run. -/
def ofRendered (overwrite : Bool) (files : List Code.RenderedFile) : Batch :=
  ⟨files.map fun f => ⟨f.path, f.content, f.role, overwrite⟩⟩

/-- The files that have something in the way. -/
def conflicts (b : Batch) (base : Path) (d : Disk) : List Path :=
  (b.files.filter fun f => (f.target base).conflicts d).map (·.path)

/-- Remembers the files that may be replaced. -/
def saveAll (base : Path) (d : Disk) : List BatchFile → Undo → Except Failure Undo
  | [], u => .ok u
  | f :: fs, u =>
    if f.overwrite then
      match u.save d (f.target base).path with
      | .ok u => saveAll base d fs u
      | .error e => .error (.during ("failed to read " ++ (f.target base).path.text) (.fileSystem e))
    else saveAll base d fs u

/-- Writes files in turn; a failure undoes what `u` tells. -/
def writeAll (base : Path) : List BatchFile → Undo → WriteReport → Disk → Disk × Except Failure WriteReport
  | [], _, report, d => (d, .ok report)
  | f :: fs, u, report, d =>
    match (f.target base).write d with
    | (d, .ok .created) =>
      writeAll base fs (u.addCreated (f.target base).path) { report with created := report.created ++ [f.path] } d
    | (d, .ok .replaced) => writeAll base fs u { report with replaced := report.replaced ++ [f.path] } d
    | (d, .error e) =>
      match u.restore d with
      | (d, none) => (d, .error e)
      | (d, some cleanup) =>
        (d, .error (.during ("rollback also failed: " ++ cleanup.message) e))

/-- Writes every file into the directory `base`, or none. -/
def commit (b : Batch) (base : Path) (d : Disk) : Disk × Except Failure WriteReport :=
  match b.conflicts base d with
  | [] =>
    match saveAll base d b.files .empty with
    | .error e => (d, .error e)
    | .ok u => writeAll base b.files u ⟨[], []⟩ d
  | paths => (d, .error (.wouldOverwriteAll paths))

end Batch

end Counterpart
