/-
A disk: files and directories below a root, one of which is the working directory. Operations take paths as they are
written, so a dot, a double dot or a slash at the end asks for a directory; none of them changes anything when it
fails, except that `createDirectories` keeps the directories made until then.
-/
import Counterpart.Failure

namespace Counterpart

open Text

/-- The names from a place up to the root. -/
abbrev Location : Type := List String

/-- What can be at a place. -/
inductive DiskEntry
  | file (content : ByteArray)
  | directory

def DiskEntry.isFile : DiskEntry → Bool
  | file _ => true
  | directory => false

structure Disk where
  workDir : Location
  /-- What there is, without the root. -/
  entries : List (Location × DiskEntry)

namespace Disk

/-- A disk with an empty working directory alone. -/
def empty : Disk := ⟨["work"], [(["work"], .directory)]⟩

/-! ## Places -/

/-- What is at a place. -/
def get? (d : Disk) (l : Location) : Option DiskEntry :=
  if l = [] then some .directory else (d.entries.find? fun e => e.1 == l).map (·.2)

def setEntry (l : Location) (e : DiskEntry) : List (Location × DiskEntry) → List (Location × DiskEntry)
  | [] => [(l, e)]
  | x :: xs => if x.1 = l then (l, e) :: xs else x :: setEntry l e xs

/-- The disk with an entry at a place. -/
def set (d : Disk) (l : Location) (e : DiskEntry) : Disk := { d with entries := setEntry l e d.entries }

/-- The disk with nothing at a place. -/
def erase (d : Disk) (l : Location) : Disk := { d with entries := d.entries.filter fun e => e.1 != l }

/-- The longest file name in bytes. -/
def maxNameSize : Nat := 255

/-- The longest path in bytes, however it is written. -/
def maxPathSize : Nat := 4095

/-- The place that names lead to. Every name but the last must be that of a directory. -/
def descend (d : Disk) : Location → List String → Except FileFault Location
  | l, [] => .ok l
  | l, name :: names =>
    if name = "" then d.descend l names
    else match d.get? l with
      | none => .error .notFound
      | some (.file _) => .error .notADirectory
      | some .directory =>
        if name = "." then d.descend l names
        else if name = ".." then d.descend l.tail names
        else if maxNameSize < name.utf8ByteSize then .error .invalidFilename
        else d.descend (name :: l) names

/-- The place that a path names, whether something is there or not. -/
def locate (d : Disk) (p : Path) : Except FileFault Location :=
  if p.text = "" then .error .notFound
  else if p.text.toList.contains '\x00' then .error .invalidInput
  else if maxPathSize < p.text.utf8ByteSize then .error .invalidFilename
  else d.descend (if p.isAbsolute then [] else d.workDir) p.pieces

/-- Whether only a directory can be at the path. -/
def asksForDirectory (p : Path) : Bool := p.text.endsWith "/"

/-! ## Looking -/

/-- What is at a path. -/
def entry (d : Disk) (p : Path) : Except FileFault DiskEntry := do
  match d.get? (← d.locate p) with
  | none => throw .notFound
  | some (.file content) => if asksForDirectory p then throw .notADirectory else return .file content
  | some .directory => return .directory

def holds (d : Disk) (p : Path) (f : DiskEntry → Bool) : Bool :=
  match d.entry p with
  | .ok e => f e
  | .error _ => false

def exists? (d : Disk) (p : Path) : Bool := d.holds p fun _ => true

def isFile (d : Disk) (p : Path) : Bool := d.holds p DiskEntry.isFile

def isDirectory (d : Disk) (p : Path) : Bool := d.holds p fun e => !e.isFile

/-- The content of a file. -/
def read (d : Disk) (p : Path) : Except FileFault ByteArray := do
  match ← d.entry p with
  | .file content => return content
  | .directory => throw .isADirectory

/-- The content of a file that holds text. -/
def readText (d : Disk) (p : Path) : Except FileFault String := do
  match String.fromUTF8? (← d.read p) with
  | some s => return s
  | none => throw .invalidData

/-! ## Changing -/

/-- Gives a file its content. A new file needs its directory to be there. -/
def write (d : Disk) (p : Path) (content : ByteArray) : Except FileFault Disk := do
  let l ← d.locate p
  if asksForDirectory p || (d.get? l).any (fun e => !e.isFile) then throw .isADirectory
  else return d.set l (.file content)

/-- Removes a file. -/
def removeFile (d : Disk) (p : Path) : Except FileFault Disk := do
  match ← d.entry p with
  | .file _ => return d.erase (← d.locate p)
  | .directory => throw .isADirectory

/-- Makes a directory inside one that is there. -/
def createDirectory (d : Disk) (p : Path) : Except FileFault Disk := do
  let l ← d.locate p
  match d.get? l with
  | some _ => throw .alreadyExists
  | none => return d.set l .directory

/-- Makes the first of the directories, each of which is inside the next one; the next ones are made when the first
cannot be made without. -/
def createFrom (d : Disk) : List Path → Disk × Option FileFault
  | [] => (d, none)
  | p :: outer =>
    match d.createDirectory p with
    | .ok d => (d, none)
    | .error .notFound =>
      match d.createFrom outer with
      | (d, some e) => (d, some e)
      | (d, none) =>
        match d.createDirectory p with
        | .ok d => (d, none)
        | .error e => (d, if d.isDirectory p then none else some e)
    | .error e => (d, if d.isDirectory p then none else some e)

/-- Makes a directory and those around it that are missing. -/
def createDirectories (d : Disk) (p : Path) : Disk × Option FileFault := d.createFrom p.ancestors

end Disk

end Counterpart
