/-
What a source declares: imports and classes. Of a class its header is kept, the parameters of the primary
constructor, the entries of an enum, and the classes nested in it.
-/
import Counterpart.Kotlin.Type

namespace Counterpart.Kotlin

/-- The kinds of class-like declarations. -/
inductive ClassKind
  | data
  | enum
  | plain
  | interface
  | object
  | annotationClass
  | value
deriving DecidableEq, Repr

/-- Whether classes of the kind get a counterpart. -/
def ClassKind.isSupported : ClassKind → Bool
  | .data | .enum => true
  | _ => false

def ClassKind.keyword : ClassKind → String
  | .data => "data class"
  | .enum => "enum class"
  | .plain => "class"
  | .interface => "interface"
  | .object => "object"
  | .annotationClass => "annotation class"
  | .value => "value class"

/-- Who sees a member: everyone, the module, subclasses, or its own class only. -/
inductive Visibility
  | pub
  | internal
  | prot
  | priv
deriving DecidableEq, Repr

/-- A parameter of a primary constructor. -/
structure Field where
  /-- The name without backticks. -/
  name : String
  ty : TypeRef
  visibility : Visibility
  hasDefault : Bool
  /-- Declared with `var`. -/
  mutable : Bool
  /-- Declared with `val` or `var`. -/
  isProperty : Bool
  /-- The last segments of the names of its annotations. -/
  annotations : List String
deriving Repr

/-- Private fields have no part in generation. -/
def Field.isPrivate (f : Field) : Bool :=
  f.visibility == .priv

/-- A constant of an enum, with its arguments as written, parentheses included. -/
structure EnumEntry where
  name : String
  args : Option String
deriving DecidableEq, Repr

/-- A class as one source declares it. -/
structure ClassTree where
  /-- The name without backticks. -/
  name : String
  kind : ClassKind
  /-- The type parameters as written, angle brackets included. -/
  typeParams : Option String
  fields : List Field
  entries : List EnumEntry
  nested : List ClassTree
  /-- The byte offset of the name. -/
  offset : Nat

/-- The targets of an import directive: every name of a package, or one symbol, possibly under another name. -/
structure Import where
  /-- The path without the star. -/
  path : String
  localAlias : Option String
  star : Bool
deriving DecidableEq, Repr

namespace Import

def symbol (path : String) : Import := ⟨path, none, false⟩

def everything (package : String) : Import := ⟨package, none, true⟩

/-- The name that the directive brings into scope; a star import brings none of its own. -/
def localName? (i : Import) : Option String :=
  if i.star then none else some (i.localAlias.getD (Name.shortName i.path))

/-- The directive after its keyword. -/
def text (i : Import) : String :=
  if i.star then i.path ++ ".*"
  else match i.localAlias with
    | some name => i.path ++ " as " ++ name
    | none => i.path

end Import

/-- What is read from one source file. -/
structure SourceUnit where
  package : String
  imports : List Import
  classes : List ClassTree

end Counterpart.Kotlin
