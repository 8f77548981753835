/-
Source files as code: the package, the imports in sorted order, and the items of the body with blank lines between
them. `FileCode.prune` drops the imports whose name the body does not mention.
-/
import Counterpart.Code.Declaration
import Counterpart.Code.Function
import Counterpart.Output.Workspace

namespace Counterpart.Code

open Kotlin Output Text

/-- A source file in parts. -/
structure FileCode where
  package : String
  /-- The import directives after their keyword. -/
  imports : List String
  items : List (List Fragment)

/-! ## Mentions -/

/-- A character that belongs to a name where it stands in code. -/
def continuesName (c : Char) : Bool := isNameChar c || c == '$'

/-- Whether what stands between two characters is a name of its own and no member of something. -/
def standsAlone (before after : Option Char) : Bool :=
  !before.any (fun c => continuesName c || c == '.') && !after.any continuesName

/-- Whether one of the occurrences of a name stands alone. Occurrences do not overlap: `skip` counts the
characters left of the last one. -/
def mentionedFrom (name : List Char) : (skip : Nat) → (before : Option Char) → List Char → Bool
  | skip, before, [] => skip == 0 && name.isEmpty && standsAlone before none
  | skip + 1, _, c :: cs => mentionedFrom name skip (some c) cs
  | 0, before, c :: cs =>
    if name.isPrefixOf (c :: cs) then
      standsAlone before ((c :: cs).drop name.length).head? || mentionedFrom name (name.length - 1) (some c) cs
    else mentionedFrom name 0 (some c) cs

/-- Whether a text mentions a name. -/
def mentions (text name : String) : Bool := mentionedFrom name.toList 0 none text.toList

namespace FileCode

def isEmpty (f : FileCode) : Bool := f.items.isEmpty

/-- The items alone. -/
def body (f : FileCode) : String :=
  ((Buffer.ofIndent .standard).fragments (Fragment.separated f.items)).text

/-- Whether a directive is needed in a file with this body. A star import always is. -/
def isNeeded (body directive : String) : Bool :=
  match localName? (Name.shortName directive) with
  | some name => mentions body name
  | none => true

/-- The file without the imports that its body does not mention. -/
def prune (f : FileCode) : FileCode :=
  let body := f.body
  { f with imports := f.imports.filter (isNeeded body) }

/-! ## Text -/

/-- A text without neighbours that are equal. -/
def dropRepeated : List String → List String
  | [] => []
  | [s] => [s]
  | s :: t :: rest => if s = t then dropRepeated (t :: rest) else s :: dropRepeated (t :: rest)

/-- The directives in the order of the file, each once. -/
def sortedImports (f : FileCode) : List String :=
  dropRepeated (f.imports.mergeSort fun a b => !(decide (b < a)))

/-- The package line; none in the default package. -/
def packageLines (f : FileCode) : String :=
  if f.package.isEmpty then "" else "package " ++ safePath f.package ++ "\n"

def importLines (f : FileCode) : String :=
  String.join (f.sortedImports.map fun directive => "import " ++ directive ++ "\n")

/-- The sections that are not empty, with a blank line between each two. -/
def render (f : FileCode) : String :=
  join "\n" ([f.packageLines, f.importLines, f.body].filter fun s => !s.isEmpty)

/-! ## Generated files -/

/-- The code of an output file. -/
def ofFile (f : Output.File) : FileCode :=
  ⟨f.package, f.imports.directives,
    fragmentsOfAll f.declarations ++ f.functions.map fun g => (FunctionCode.ofFunction g).fragments⟩

end FileCode

/-- The text of an output file. -/
def renderFile (f : Output.File) : String := (FileCode.ofFile f).prune.render

/-- The extension of source files. -/
def extension : String := "kt"

/-- A file that a run writes. -/
structure RenderedFile where
  path : Path
  role : FileRole
  content : String
deriving DecidableEq, Repr

/-- The files of a workspace that have something to write. -/
def renderAll (w : Workspace) : List RenderedFile :=
  (w.files.toList.filter fun f => !f.isEmpty).map fun f => ⟨f.path, f.role, renderFile f⟩

end Counterpart.Code
