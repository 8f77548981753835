/-
The names of generated code. The counterpart of a class is called like the class with a suffix; for the selected
class the user may choose another name before the suffix.
-/
import Counterpart.Project

namespace Counterpart

/-- Where conversion functions are written. -/
inductive MapperPlacement
  /-- In the file of the counterpart. -/
  | inlined
  /-- In a file of their own. -/
  | separate
deriving DecidableEq, Repr

namespace MapperPlacement

def text : MapperPlacement → String
  | inlined => "inline"
  | separate => "separate"

/-- The placement that a text names, in letters of any case. -/
def ofText? (s : String) : Option MapperPlacement :=
  let s := s.map Char.toLower
  [inlined, separate].find? fun p => p.text == s

/-- What a user is told whose text names no placement. -/
def refusal (s : String) : String :=
  "unknown mapper placement '" ++ s ++ "', expected '" ++ inlined.text ++ "' or '" ++ separate.text ++ "'"

end MapperPlacement

structure Naming where
  /-- The selected class. -/
  root : ClassId
  /-- The name of its counterpart before the suffix. -/
  rootName : String
  suffix : String
deriving DecidableEq, Repr

namespace Naming

/-- The suffix when the user names none. -/
def defaultSuffix : String := "Model"

/-- The name of the counterpart of a class. -/
def className (n : Naming) (p : Project) (c : ClassId) : String :=
  (if c = n.root then n.rootName else (p.decl c).name) ++ n.suffix

/-- The name of a property whose type is a counterpart. -/
def fieldName (n : Naming) (field : String) : String := field ++ n.suffix

/-- The name of the conversion functions. -/
def functionName (n : Naming) : String := "mapTo" ++ n.suffix

end Naming

end Counterpart
