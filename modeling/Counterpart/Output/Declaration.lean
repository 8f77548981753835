/-
Generated declarations. A reference addresses one by its file and the names from the top level down; of several
declarations with one name in one place the first counts.
-/
import Counterpart.Project

namespace Counterpart.Output

open Kotlin Text

/-- The number of an output file. -/
abbrev OutputId := Nat

/-- The type of what cannot be generated. -/
def placeholderType : String := "Any? /* Implement manually */"

/-- The address of a declaration. -/
structure Ref where
  file : OutputId
  /-- The names of the declarations around it and its own, outermost first. -/
  path : List String
deriving DecidableEq, Repr

namespace Ref

def topLevel (file : OutputId) (name : String) : Ref := ⟨file, [name]⟩

/-- The address of a declaration inside the one that `r` addresses. -/
def child (r : Ref) (name : String) : Ref := ⟨r.file, r.path ++ [name]⟩

/-- The name by which a file of the same package refers to the declaration. -/
def qualifiedName (r : Ref) : String := join "." r.path

/-- The simple name. -/
def name (r : Ref) : String := r.path.getLastD ""

end Ref

inductive DeclarationKind
  | data
  | enum
  /-- Instead of a data class, which needs a parameter at least. -/
  | plain
deriving DecidableEq, Repr

/-- A property in a primary constructor. -/
structure Param where
  name : String
  ty : String
  mutable : Bool
deriving DecidableEq, Repr

/-- The counterpart of a class. -/
structure Declaration where
  name : String
  kind : DeclarationKind
  source : ClassId
  /-- The type parameters as the source has them. -/
  typeParams : Option String
  params : List Param
  entries : List EnumEntry
  nested : List Declaration

namespace Declaration

/-- A declaration with a name, a kind and a source alone. -/
def ofName (name : String) (kind : DeclarationKind) (source : ClassId) : Declaration :=
  ⟨name, kind, source, none, [], [], []⟩

/-- The first declaration of this name. -/
def findIn? (name : String) (ds : List Declaration) : Option Declaration :=
  ds.find? fun d => d.name == name

def findNested? (d : Declaration) (name : String) : Option Declaration :=
  findIn? name d.nested

/-- The declaration at the end of a path of names. -/
def at? : List String → List Declaration → Option Declaration
  | [], _ => none
  | [name], ds => findIn? name ds
  | name :: rest, ds => (findIn? name ds).bind fun d => at? rest d.nested

/-- The list with the first declaration of this name changed; none when there is no such or `f` gives none. -/
def updateFirst? (name : String) (f : Declaration → Option Declaration) : List Declaration → Option (List Declaration)
  | [] => none
  | d :: ds => if d.name == name then (f d).map (· :: ds) else (updateFirst? name f ds).map (d :: ·)

/-- The list with the declaration at the end of a path changed. -/
def updateAt? (f : Declaration → Declaration) : List String → List Declaration → Option (List Declaration)
  | [], _ => none
  | [name], ds => updateFirst? name (fun d => some (f d)) ds
  | name :: rest, ds =>
    updateFirst? name (fun d => (updateAt? f rest d.nested).map fun nested => { d with nested }) ds

end Declaration

end Counterpart.Output
