/-
What a written type means. A simple name is looked up among the type parameters and nested classes of the
classes around it, then in the explicit imports, the package of the file, the star imports, and last among the
library types. A type parameter hides every other meaning and has none itself.
-/
import Counterpart.Kotlin.DefaultImport
import Counterpart.Kotlin.TypeParams
import Counterpart.Project

namespace Counterpart

open Kotlin Text

/-- What a name stands for. -/
structure Meaning where
  qualifiedName : String
  /-- The class of the project that has the name. -/
  classId : Option ClassId
deriving DecidableEq, Repr

/-- A type with what its name stands for. -/
structure ResolvedType where
  written : TypeRef
  /-- The qualified name of the type, when it is known. -/
  qualifiedName : Option String
  /-- The qualified name of the first segment; a file that imports it can use the name as written. -/
  importName : Option String
  classId : Option ClassId
  args : List (TypeArg ResolvedType)

namespace ResolvedType

/-- The name as written. -/
def displayName (t : ResolvedType) : String := t.written.name

def nullable (t : ResolvedType) : Bool := t.written.nullable

def nullableMark (t : ResolvedType) : String := t.written.nullableMark

/-- The arguments as written, in angle brackets. -/
def argsText (t : ResolvedType) : String := t.written.argsText

end ResolvedType

namespace Project

/-! ## Simple names -/

/-- What the classes around a name say about it, innermost first: a type parameter (`some none`), or a class
that is nested in one of them or is one of them (`some (some c)`). -/
def lookAround (p : Project) (name : String) : List ClassId → Option (Option ClassId)
  | [] => none
  | c :: cs =>
    if (TypeParams.ofOption (p.decl c).typeParams).contains name then some none
    else match p.findNested? c name with
      | some nested => some (some nested)
      | none => if (p.decl c).name == name then some (some c) else p.lookAround name cs

/-- The class of this qualified name as a meaning. -/
def declared? (p : Project) (qualifiedName : String) : Option Meaning :=
  (p.find? qualifiedName).map fun c => ⟨qualifiedName, some c⟩

/-- What a simple name means in a file, outside its classes. -/
def meaningInFile? (p : Project) (f : SourceFile) (name : String) : Option Meaning :=
  match f.imports.find? fun i => i.localName? == some name with
  | some i => some ⟨i.path, p.find? i.path⟩
  | none =>
    (p.declared? (Name.inPackage f.package name)).or <|
      ((f.imports.filter (·.star)).findSome? fun i => p.declared? (i.path ++ "." ++ name)).or <|
        (defaultType? name).map (⟨·, none⟩)

/-- What a simple name means inside a class. -/
def meaning? (p : Project) (scope : ClassId) (name : String) : Option Meaning :=
  match p.lookAround name (scope :: (p.decl scope).enclosing) with
  | some (some c) => some ⟨p.qualifiedName c, some c⟩
  | some none => none
  | none => p.meaningInFile? (p.fileOf scope) name

/-! ## Types -/

/-- The class reached from `c` through nested classes of the given names. -/
def descend (p : Project) : Option ClassId → List String → Option ClassId
  | c, [] => c
  | c, name :: names => p.descend (c.bind fun c => p.findNested? c name) names

/-- What a dotted name means inside a class, with the import that it needs. When nobody knows its first segment
it is taken as a qualified name. -/
def meaningOfPath? (p : Project) (scope : ClassId) (name : String) : Option (Meaning × Option String) :=
  let segments := split '.' name
  let rest := segments.drop 1
  match p.meaning? scope (segments.headD "") with
  | some head =>
    let qualifiedName := join "." (head.qualifiedName :: rest)
    some (⟨qualifiedName, (p.descend head.classId rest).or (p.find? qualifiedName)⟩, some head.qualifiedName)
  | none => if rest.isEmpty then none else some (⟨name, p.find? name⟩, none)

mutual

/-- A type as seen from inside a class. -/
def resolve (p : Project) (scope : ClassId) : TypeRef → ResolvedType
  | .function nullable text => ⟨.function nullable text, none, none, none, []⟩
  | .named name args nullable text =>
    let found := p.meaningOfPath? scope name
    ⟨.named name args nullable text, found.map (·.1.qualifiedName), found.bind (·.2), found.bind (·.1.classId),
      p.resolveArgs scope args⟩

def resolveArgs (p : Project) (scope : ClassId) : List (TypeArg TypeRef) → List (TypeArg ResolvedType)
  | [] => []
  | a :: as => p.resolveArg scope a :: p.resolveArgs scope as

def resolveArg (p : Project) (scope : ClassId) : TypeArg TypeRef → TypeArg ResolvedType
  | .star => .star
  | .type variance ty => .type variance (p.resolve scope ty)

end

end Project

end Counterpart
