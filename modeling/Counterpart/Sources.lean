/-
Loading a project from disk. Below a directory every source file counts, except in directories that hold build
products or are hidden; the files come in the order of their paths.
-/
import Counterpart.Code.File
import Counterpart.Config
import Counterpart.Disk
import Counterpart.Kotlin.Body

namespace Counterpart

open Kotlin Text

/-- Why no project or configuration can be loaded. -/
inductive SourceError
  | unreadable (path : Path) (fault : FileFault)
  | invalidSource (file : Path) (error : SyntaxError)
  | invalidConfig (file : Path) (error : ConfigError)
  /-- A place that should hold sources has none. -/
  | noSources (root : Path)
deriving DecidableEq, Repr

namespace SourceError

def message : SourceError → String
  | unreadable path _ => "failed to read '" ++ path.text ++ "'"
  | invalidSource _ e => e.cause.message
  | invalidConfig _ e => e.fault.message
  | noSources root => "no Kotlin sources found under '" ++ root.text ++ "'"

/-- A hint how to mend the error, for some of them. -/
def help : SourceError → Option String
  | invalidSource _ e => e.cause.help
  | noSources _ => some "pass the directory that contains your .kt files with --source"
  | _ => none

end SourceError

/-! ## Source files -/

/-- Directories that are not looked into. -/
def skippedDirectories : List String := ["build", "out", "target", "node_modules"]

def isSkippedDirectory (name : String) : Bool :=
  name.startsWith "." || skippedDirectories.contains name

def isSourceFile (p : Path) : Bool := p.extension? == some Code.extension

namespace Disk

/-- The names from the place `top` down to `l`, when `l` is below it. -/
def namesBelow? (top l : Location) : Option (List String) :=
  if l.length > top.length && l.drop (l.length - top.length) == top then
    some (l.take (l.length - top.length)).reverse
  else none

/-- The path that names lead to from `root`. -/
def pathBelow (root : Path) (names : List String) : Path := names.foldl (fun p name => p.join ⟨name⟩) root

/-- The source files below the directory `root`, which is at the place `top`. A directory counts as one as long as
its path is not too long to look it up. -/
def sourcesBelow (d : Disk) (root : Path) (top : Location) : List Path :=
  let found := d.entries.filterMap fun (l, _) => do
    let names ← namesBelow? top l
    let path := pathBelow root names
    if names.dropLast.any isSkippedDirectory || !d.isDirectory (pathBelow root names.dropLast) || d.isDirectory path
    then none else some path
  (found.filter isSourceFile).mergeSort fun p q => !q.lt p

/-- The source files of a root, which is a directory or a file. -/
def sourceFiles (d : Disk) (root : Path) : Except SourceError (List Path) :=
  match d.locate root, d.entry root with
  | .ok _, .ok (.file _) => .ok (if isSourceFile root then [root] else [])
  | .ok top, .ok .directory => .ok (d.sourcesBelow root top)
  | _, .error e | .error e, _ => .error (.unreadable root e)

/-! ## Projects -/

/-- Adds a file to a project. -/
def loadFile (d : Disk) (p : Project) (path : Path) : Except SourceError Project :=
  match d.readText path with
  | .error e => .error (.unreadable path e)
  | .ok content =>
    match SourceUnit.ofSource content with
    | .error e => .error (.invalidSource path e)
    | .ok unit => .ok (p.add path unit)

/-- Adds the files of a root to a project. -/
def loadRoot (d : Disk) (p : Project) (root : Path) : Except SourceError Project := do
  match ← d.sourceFiles root with
  | [] => throw (.noSources root)
  | files => files.foldlM d.loadFile p

/-- The project that the roots hold. -/
def loadProject (d : Disk) (roots : List Path) : Except SourceError Project :=
  roots.foldlM d.loadRoot .empty

/-! ## Configuration -/

def loadConfig (d : Disk) (path : Path) : Except SourceError Config :=
  match d.readText path with
  | .error e => .error (.unreadable path e)
  | .ok content =>
    match Config.ofText content with
    | .error e => .error (.invalidConfig path e)
    | .ok c => .ok c

/-- The configuration of the working directory; everything is left open when there is none. -/
def discoverConfig (d : Disk) : Except SourceError Config :=
  let path : Path := (Path.mk ".").join ⟨Config.fileName⟩
  if d.isFile path then d.loadConfig path else .ok .empty

end Disk

end Counterpart
