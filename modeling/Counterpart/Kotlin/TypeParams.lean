/-
The type parameters of a class, read from the text of their list, and the two forms in which a conversion
function repeats them: as arguments of the class and as parameters of its own.
-/
import Counterpart.Text.Split

namespace Counterpart.Kotlin

open Text

/-- A type parameter with its upper bound. -/
structure TypeParam where
  name : String
  bound : Option String
deriving DecidableEq, Repr

/-- The parameter as a function declares it. -/
def TypeParam.declaration (p : TypeParam) : String :=
  match p.bound with
  | some bound => p.name ++ " : " ++ bound
  | none => p.name

/-- The type parameters of a class in order. -/
structure TypeParams where
  params : List TypeParam
deriving DecidableEq, Repr

namespace TypeParams

/-! ## Reading -/

/-- The parts of a text between the commas outside angle brackets and parentheses, `depth` of which are open. -/
def topLevelParts : (depth : Int) → List Char → List (List Char)
  | _, [] => [[]]
  | depth, c :: cs =>
    if c = ',' && depth = 0 then [] :: topLevelParts depth cs
    else
      let depth := if c = '<' || c = '(' then depth + 1 else if c = '>' || c = ')' then depth - 1 else depth
      match topLevelParts depth cs with
      | [] => [[c]]
      | w :: ws => (c :: w) :: ws

/-- The parts without the last when that one is blank. -/
def dropBlankEnd (parts : List (List Char)) : List (List Char) :=
  match parts.getLast? with
  | some last => if last.all isBlank then parts.dropLast else parts
  | none => []

/-- A parameter from its part of the list: the last word before the colon that is neither an annotation nor a
modifier, and the bound after the colon. -/
def readParam (part : List Char) : Option TypeParam :=
  let bound := match part.dropWhile (· != ':') with
    | [] => none
    | _ :: cs => some (trim (String.ofList cs))
  let head := words (String.ofList (part.takeWhile (· != ':')))
  let names := head.filter fun w => !w.startsWith "@" && !(["out", "in", "reified"].contains w)
  names.getLast?.map (⟨·, bound⟩)

/-- The parameters that a list in angle brackets declares. -/
def ofText (text : String) : TypeParams :=
  let inner := trimEnd (· == '>') (trimStart (· == '<') (trim text).toList)
  ⟨(dropBlankEnd (topLevelParts 0 (trim (String.ofList inner)).toList)).filterMap readParam⟩

/-- The parameters of a class; none without a list. -/
def ofOption : Option String → TypeParams
  | some text => ofText text
  | none => ⟨[]⟩

/-! ## Use -/

def isEmpty (t : TypeParams) : Bool := t.params.isEmpty

def names (t : TypeParams) : List String := t.params.map (·.name)

def contains (t : TypeParams) (name : String) : Bool := t.names.contains name

/-- The list that applies the class to its own parameters; empty without parameters. -/
def asArguments (t : TypeParams) : String :=
  if t.isEmpty then "" else "<" ++ join ", " t.names ++ ">"

/-- The list that declares the parameters on a function, without variance. -/
def asFunctionDeclaration (t : TypeParams) : String :=
  if t.isEmpty then "" else "<" ++ join ", " (t.params.map TypeParam.declaration) ++ ">"

end TypeParams

end Counterpart.Kotlin
