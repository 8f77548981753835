/-
The output of a run before it is rendered: files with imports, declarations and functions, numbered in the order
of creation.
-/
import Counterpart.Failure
import Counterpart.Output.Declaration
import Counterpart.Output.Function
import Counterpart.Output.ImportSet

namespace Counterpart.Output

open Kotlin

inductive FileRole
  /-- Declarations, and the functions when they are inline. -/
  | entity
  /-- Functions alone. -/
  | mapper
deriving DecidableEq, Repr

structure File where
  id : OutputId
  path : Path
  package : String
  role : FileRole
  imports : ImportSet
  declarations : List Declaration
  functions : List Function

instance : Inhabited File := ⟨⟨0, ⟨""⟩, "", .entity, .empty, [], []⟩⟩

/-- Whether there is nothing to write. -/
def File.isEmpty (f : File) : Bool := f.declarations.isEmpty && f.functions.isEmpty

/-- Where a declaration is put. -/
inductive Place
  | topLevel (file : OutputId)
  | inside (parent : Ref)
deriving DecidableEq, Repr

namespace Place

def file : Place → OutputId
  | topLevel file => file
  | inside parent => parent.file

/-- The address of a declaration put there. -/
def refTo (name : String) : Place → Ref
  | topLevel file => .topLevel file name
  | inside parent => parent.child name

end Place

structure Workspace where
  files : Array File
deriving Inhabited

namespace Workspace

/-- No files. -/
def empty : Workspace := ⟨#[]⟩

/-! ## Files -/

def file (w : Workspace) (id : OutputId) : File := w.files.getD id default

/-- The workspace with one more file without content. -/
def create (w : Workspace) (path : Path) (package : String) (role : FileRole) : Workspace :=
  ⟨w.files.push ⟨w.files.size, path, package, role, .empty, [], []⟩⟩

/-- The first file at the path. -/
def findFile? (w : Workspace) (path : Path) : Option OutputId :=
  w.files.findIdx? fun f => f.path.same path

/-- The workspace with a file changed. -/
def updateFile (w : Workspace) (id : OutputId) (f : File → File) : Workspace :=
  ⟨w.files.modify id f⟩

/-! ## Declarations -/

/-- The declaration at an address. -/
def declaration? (w : Workspace) (r : Ref) : Option Declaration :=
  Declaration.at? r.path (w.file r.file).declarations

/-- Whether a place holds a declaration of this name. -/
def holds (w : Workspace) (place : Place) (name : String) : Bool :=
  match place with
  | .topLevel file => (Declaration.findIn? name (w.file file).declarations).isSome
  | .inside parent => ((w.declaration? parent).bind (·.findNested? name)).isSome

/-- The workspace with the declaration at an address changed. -/
def updateDeclaration (w : Workspace) (r : Ref) (f : Declaration → Declaration) : Except Failure Workspace :=
  match Declaration.updateAt? f r.path (w.file r.file).declarations with
  | some declarations => .ok (w.updateFile r.file fun file => { file with declarations })
  | none => .error (.missingDeclaration r.qualifiedName (w.file r.file).path)

/-- The workspace with a declaration put behind those of its place. -/
def addDeclaration (w : Workspace) (place : Place) (d : Declaration) : Except Failure Workspace :=
  match place with
  | .topLevel file => .ok (w.updateFile file fun f => { f with declarations := f.declarations ++ [d] })
  | .inside parent => w.updateDeclaration parent fun p => { p with nested := p.nested ++ [d] }

/-! ## Imports and functions -/

/-- Copies an import directive into a file, unless it only names a class of the file's own package. -/
def addImport (w : Workspace) (id : OutputId) (i : Import) : Workspace :=
  w.updateFile id fun f =>
    if !i.star && i.localAlias.isNone && Name.packageOf i.path == f.package then f
    else { f with imports := f.imports.addImport i }

/-- Imports a qualified name into a file, unless the file sees it anyway. -/
def addReference (w : Workspace) (id : OutputId) (name : String) : Workspace :=
  w.updateFile id fun f => { f with imports := f.imports.addReference name f.package }

def addReferences (w : Workspace) (id : OutputId) (names : List String) : Workspace :=
  names.foldl (fun w name => w.addReference id name) w

def addFunction (w : Workspace) (id : OutputId) (f : Function) : Workspace :=
  w.updateFile id fun file => { file with functions := file.functions ++ [f] }

end Workspace

end Counterpart.Output
