/-
The classes of all source files. Files and classes are numbered in the order in which they are read, a class
before the ones nested in it; a class knows the classes around it, innermost first. Names are looked up by
search: `Project.find?` gives the first class of a qualified name.
-/
import Counterpart.Kotlin.Declaration
import Counterpart.Path

namespace Counterpart

open Kotlin Text

/-- The number of a source file. -/
abbrev FileId := Nat

/-- The number of a class. -/
abbrev ClassId := Nat

/-- What is known of a source file beside its classes. -/
structure SourceFile where
  id : FileId
  path : Path
  /-- Empty for the default package. -/
  package : String
  imports : List Import
deriving Inhabited

/-- The directory of the file. -/
def SourceFile.dir (f : SourceFile) : Path := f.path.dir

/-- A class of the project. -/
structure ClassDecl where
  id : ClassId
  name : String
  kind : ClassKind
  file : FileId
  /-- The classes around it, innermost first. -/
  enclosing : List ClassId
  typeParams : Option String
  fields : List Field
  entries : List EnumEntry
  /-- The byte offset of the name. -/
  offset : Nat

instance : Inhabited ClassDecl := ⟨⟨0, "", .plain, 0, [], none, [], [], 0⟩⟩

namespace ClassDecl

/-- The class directly around it. -/
def parent? (c : ClassDecl) : Option ClassId := c.enclosing.head?

/-- The outermost class around it, or the class itself. -/
def outermost (c : ClassDecl) : ClassId := c.enclosing.getLastD c.id

/-- The fields that take part in generation. -/
def visibleFields (c : ClassDecl) : List Field := c.fields.filter fun f => !f.isPrivate

def isSupported (c : ClassDecl) : Bool := c.kind.isSupported

def isEnum (c : ClassDecl) : Bool := c.kind == .enum

end ClassDecl

/-! ## Numbering -/

mutual

/-- The class and the classes nested in it, numbered from `next`. -/
def ClassDecl.ofTree (file : FileId) (enclosing : List ClassId) (next : ClassId) : ClassTree → List ClassDecl
  | ⟨name, kind, typeParams, fields, entries, nested, offset⟩ =>
    ⟨next, name, kind, file, enclosing, typeParams, fields, entries, offset⟩
      :: ClassDecl.ofTrees file (next :: enclosing) (next + 1) nested

/-- The classes of a list, numbered from `next`. -/
def ClassDecl.ofTrees (file : FileId) (enclosing : List ClassId) (next : ClassId) : List ClassTree → List ClassDecl
  | [] => []
  | t :: ts =>
    let first := ClassDecl.ofTree file enclosing next t
    first ++ ClassDecl.ofTrees file enclosing (next + first.length) ts

end

structure Project where
  files : Array SourceFile
  classes : Array ClassDecl
deriving Inhabited

namespace Project

/-- No files. -/
def empty : Project := ⟨#[], #[]⟩

/-- The project with one more source file. -/
def add (p : Project) (path : Path) (unit : SourceUnit) : Project :=
  let file := p.files.size
  ⟨p.files.push ⟨file, path, unit.package, unit.imports⟩,
    p.classes ++ (ClassDecl.ofTrees file [] p.classes.size unit.classes).toArray⟩

/-! ## Lookup -/

def file (p : Project) (id : FileId) : SourceFile := p.files.getD id default

def decl (p : Project) (id : ClassId) : ClassDecl := p.classes.getD id default

/-- The source file that declares the class. -/
def fileOf (p : Project) (id : ClassId) : SourceFile := p.file (p.decl id).file

/-- The top-level classes of a file in order. -/
def topLevel (p : Project) (file : FileId) : List ClassId :=
  (p.classes.toList.filter fun c => c.file == file && c.enclosing.isEmpty).map (·.id)

/-- The classes directly inside a class, in order. -/
def nested (p : Project) (id : ClassId) : List ClassId :=
  (p.classes.toList.filter fun c => c.parent? == some id).map (·.id)

def packageOf (p : Project) (id : ClassId) : String := (p.fileOf id).package

/-- The name of a class with the names of the classes around it, outermost first. -/
def nestedPath (p : Project) (id : ClassId) : String :=
  join "." ((id :: (p.decl id).enclosing).reverse.map fun c => (p.decl c).name)

/-- The nested path inside its package. -/
def qualifiedName (p : Project) (id : ClassId) : String :=
  Name.inPackage (p.packageOf id) (p.nestedPath id)

/-- Whether `child` is declared directly inside `parent`. -/
def isNestedIn (p : Project) (child parent : ClassId) : Bool :=
  (p.decl child).parent? == some parent

/-- The first class of this qualified name. -/
def find? (p : Project) (name : String) : Option ClassId :=
  (List.range p.classes.size).find? fun id => p.qualifiedName id == name

/-- The classes of this simple name, in order. -/
def findBySimpleName (p : Project) (name : String) : List ClassId :=
  (p.classes.toList.filter fun c => c.name == name).map (·.id)

/-- The first class of this simple name directly inside `parent`. -/
def findNested? (p : Project) (parent : ClassId) (name : String) : Option ClassId :=
  (p.nested parent).find? fun id => (p.decl id).name == name

end Project

end Counterpart
