/-
Generated conversion functions, and the conversions that they are made of. `Conversion.ofCollection`, `ofMap` and
`ofPair` give the identity when nothing inside changes.
-/
import Counterpart.Project

namespace Counterpart.Output

/-- A branch from one enum constant to another. -/
structure Arm where
  source : String
  target : String
deriving DecidableEq, Repr

/-- How a source value becomes a target value. -/
inductive Conversion
  /-- The value itself. -/
  | identity
  /-- A call of a generated function on the value. -/
  | mapper (function : String)
  /-- A branch for each constant of an enum. -/
  | enumWhen (arms : List Arm)
  /-- Every element converted, and a call that gives back the kind of collection. -/
  | collection (element : Conversion) (elementNullable : Bool) (collect : Option String)
  /-- Every entry converted and put into a new map. -/
  | map (builder : String) (key : Conversion) (keyNullable : Bool) (value : Conversion) (valueNullable : Bool)
  /-- Both halves converted. -/
  | pair (first : Conversion) (firstNullable : Bool) (second : Conversion) (secondNullable : Bool)
  /-- A mark for what has to be written by hand. -/
  | placeholder
deriving DecidableEq, Repr

namespace Conversion

def isIdentity : Conversion → Bool
  | identity => true
  | _ => false

def ofCollection (element : Conversion) (elementNullable : Bool) (collect : Option String) : Conversion :=
  if element.isIdentity then identity else collection element elementNullable collect

def ofMap (builder : String) (key : Conversion) (keyNullable : Bool) (value : Conversion) (valueNullable : Bool) :
    Conversion :=
  if key.isIdentity && value.isIdentity then identity else map builder key keyNullable value valueNullable

def ofPair (first : Conversion) (firstNullable : Bool) (second : Conversion) (secondNullable : Bool) : Conversion :=
  if first.isIdentity && second.isIdentity then identity else pair first firstNullable second secondNullable

end Conversion

/-- An argument for a parameter of the counterpart. -/
structure Argument where
  /-- The name of the parameter. -/
  name : String
  /-- The property that is read. -/
  source : String
  nullable : Bool
  conversion : Conversion
deriving DecidableEq, Repr

inductive FunctionBody
  /-- The counterpart built from the converted fields. -/
  | construct (target : String) (args : List Argument)
  /-- A branch for each constant. -/
  | enumWhen (arms : List Arm)
deriving DecidableEq, Repr

/-- An extension function from a class to its counterpart. -/
structure Function where
  source : ClassId
  /-- The declaration of its type parameters, or empty. -/
  typeParams : String
  receiver : String
  name : String
  returns : String
  body : FunctionBody
deriving DecidableEq, Repr

end Counterpart.Output
