/-
Types as a source writes them. A function type is kept as its text; any other type is a dotted name with
arguments, which `TypeRef.render` writes out again.
-/
import Counterpart.Text.Name

namespace Counterpart.Kotlin

open Text

/-- The use-site variance of a type argument. -/
inductive Variance
  | invariant
  | outward
  | inward
deriving DecidableEq, Repr

/-- What is written before an argument of this variance, with the space that follows. -/
def Variance.marker : Variance → String
  | .invariant => ""
  | .outward => "out "
  | .inward => "in "

/-- A type argument whose type is given as an `α`. -/
inductive TypeArg (α : Type) where
  /-- The star projection. -/
  | star
  | type (variance : Variance) (ty : α)
deriving DecidableEq, Repr

/-- The type of an argument that is no star projection. -/
def TypeArg.type? {α : Type} : TypeArg α → Option α
  | .star => none
  | .type _ ty => some ty

/-- A type as written. -/
inductive TypeRef where
  /-- A dotted name with arguments, and the text of the whole reference on one line. -/
  | named (name : String) (args : List (TypeArg TypeRef)) (nullable : Bool) (text : String)
  /-- A function type. -/
  | function (nullable : Bool) (text : String)
deriving Repr

namespace TypeRef

/-- The name; a function type is its own name. -/
def name : TypeRef → String
  | .named name .. => name
  | .function _ text => text

def args : TypeRef → List (TypeArg TypeRef)
  | .named _ args .. => args
  | .function .. => []

/-- Whether a question mark ends the reference. -/
def nullable : TypeRef → Bool
  | .named _ _ nullable _ => nullable
  | .function nullable _ => nullable

def text : TypeRef → String
  | .named _ _ _ text => text
  | .function _ text => text

def isFunction : TypeRef → Bool
  | .named .. => false
  | .function .. => true

/-- The last segment of the name. -/
def shortName (t : TypeRef) : String :=
  Name.shortName t.name

def isGeneric (t : TypeRef) : Bool :=
  !t.args.isEmpty

mutual

/-- The reference written from its parts. -/
def render : TypeRef → String
  | .function _ text => text
  | .named name args nullable _ =>
    name ++ (if args.isEmpty then "" else "<" ++ join ", " (renderArgs args) ++ ">") ++ (if nullable then "?" else "")

def renderArgs : List (TypeArg TypeRef) → List String
  | [] => []
  | a :: as => renderArg a :: renderArgs as

def renderArg : TypeArg TypeRef → String
  | .star => "*"
  | .type variance ty => variance.marker ++ ty.render

end

/-- The arguments in angle brackets; empty when there are none. -/
def argsText (t : TypeRef) : String :=
  if t.args.isEmpty then "" else "<" ++ join ", " (renderArgs t.args) ++ ">"

/-- The question mark of a nullable reference. -/
def nullableMark (t : TypeRef) : String :=
  if t.nullable then "?" else ""

theorem render_named (name : String) (args : List (TypeArg TypeRef)) (nullable : Bool) (text : String) :
    (named name args nullable text).render =
      name ++ (named name args nullable text).argsText ++ (named name args nullable text).nullableMark := by
  rw [render]
  rfl

/-! ## Building references -/

/-- The reference of just a name. -/
def ofName (name : String) : TypeRef :=
  .named name [] false name

/-- The reference with its text written anew from its parts. -/
def retext : TypeRef → TypeRef
  | .named name args nullable text => .named name args nullable (named name args nullable text).render
  | t => t

/-- The reference with one more argument; the text stays. -/
def addArg (a : TypeArg TypeRef) : TypeRef → TypeRef
  | .named name args nullable text => .named name (args ++ [a]) nullable text
  | t => t

/-- The reference with one more invariant argument. -/
def withArg (t a : TypeRef) : TypeRef :=
  (t.addArg (.type .invariant a)).retext

/-- The nullable form. -/
def asNullable : TypeRef → TypeRef
  | .named name args _ text => (named name args true text).retext
  | .function _ text => .function true text

end TypeRef

/-! ## Built-in scalar types -/

/-- The scalar types of the package `kotlin`. -/
inductive BasicType
  | int | long | short | byte | float | double | char | boolean | string | uint | ulong | ushort | ubyte | any
deriving DecidableEq, Repr

namespace BasicType

def all : List BasicType :=
  [int, long, short, byte, float, double, char, boolean, string, uint, ulong, ushort, ubyte, any]

def name : BasicType → String
  | int => "Int"
  | long => "Long"
  | short => "Short"
  | byte => "Byte"
  | float => "Float"
  | double => "Double"
  | char => "Char"
  | boolean => "Boolean"
  | string => "String"
  | uint => "UInt"
  | ulong => "ULong"
  | ushort => "UShort"
  | ubyte => "UByte"
  | any => "Any"

def qualifiedName (b : BasicType) : String :=
  "kotlin." ++ b.name

/-- The scalar type of this qualified name. -/
def ofQualifiedName? (name : String) : Option BasicType :=
  all.find? fun b => b.qualifiedName == name

theorem ofQualifiedName?_qualifiedName (b : BasicType) : ofQualifiedName? b.qualifiedName = some b := by
  cases b <;> rfl

end BasicType

end Counterpart.Kotlin
